import Mathlib.Data.List.Chain
import Treewalk.Proofs.Labels
import Treewalk.Proofs.Natives
import Treewalk.Proofs.Trace
import Treewalk.Run.Fuel

/-!
The turns of a block: which child runs when, by position. A turn that gives a value is
followed by the next position, and one that jumps to a label of the block by the position
of that label. Main statement: a block ends as its last turn ends, and with a value only
after its last child. So a value from before a jump is never the value of a block.
-/
namespace Treewalk

variable {η σ α : Type}

/-- The computation gives no value, nor a jump to one of the labels. -/
def Outcome.Breaks (labels : List Name) : Outcome σ (Flow α) → Prop
  | .done (.value _) _ => False
  | .done (.jump label) _ => label ∉ labels
  | .failed _ _ => True
  | .outOfFuel => True

/-- What gives no value ends with a jump to another label, or with an error, or not at all. -/
theorem Outcome.breaks_cases {labels : List Name} {o : Outcome σ (Flow α)} (h : o.Breaks labels) :
    (∃ label s, o = .done (.jump label) s ∧ label ∉ labels) ∨ (∃ e s, o = .failed e s) ∨
      o = .outOfFuel := by
  rcases o with ⟨v | label, s⟩ | ⟨e, s⟩ | _
  · exact absurd h fun hfalse => hfalse
  · exact .inl ⟨label, s, rfl, h⟩
  · exact .inr (.inl ⟨e, s, rfl⟩)
  · exact .inr (.inr rfl)

namespace Block

/-- A child whose turn has come, with its position and the state it starts in. -/
structure Turn (σ : Type) where
  position : Nat
  child : Code
  state : σ

def turns (runner : Runner σ) (children : List Code) : Nat → Nat → σ → List (Turn σ)
  | 0, _, _ => []
  | steps + 1, position, s =>
    match children[position]? with
    | none => []
    | some child =>
      ⟨position, child, s⟩ ::
        match runner child s with
        | .done (.value _) s => turns runner children steps (position + 1) s
        | .done (.jump label) s =>
          match position? children label with
          | some i => turns runner children steps i s
          | none => []
        | _ => []

def Turn.Next (runner : Runner σ) (children : List Code) (t t' : Turn σ) : Prop :=
  (∃ v, runner t.child t.state = .done (.value v) t'.state ∧ t'.position = t.position + 1) ∨
  ∃ label, runner t.child t.state = .done (.jump label) t'.state ∧
    position? children label = some t'.position

/-- Turns that come one after the other, from a position and a state on. -/
structure Course (runner : Runner σ) (children : List Code) (position : Nat) (s : σ)
    (turns : List (Turn σ)) : Prop where
  first : ∀ t ∈ turns.head?, t.position = position ∧ t.state = s
  next : turns.IsChain (Turn.Next runner children)
  child : ∀ t ∈ turns, children[t.position]? = some t.child

/-- A label is found in range, at a child that declares it. -/
theorem getElem?_of_position? {children : List Code} {label : Name} {i : Nat}
    (h : position? children label = some i) : children[i]? = some (.label label) := by
  obtain ⟨before, after, htable, -⟩ := List.lookup_eq_some_iff.1 h
  have hmem : (label, i) ∈ labelTable children := by
    rw [htable]
    simp
  exact mem_labelTable.1 hmem

theorem position?_lt {children : List Code} {label : Name} {i : Nat}
    (h : position? children label = some i) : i < children.length :=
  (List.getElem?_eq_some_iff.1 (getElem?_of_position? h)).1

theorem drop_of_getElem? {children : List Code} {position : Nat} {child : Code}
    (h : children[position]? = some child) :
    children.drop position = child :: children.drop (position + 1) := by
  obtain ⟨hlt, rfl⟩ := List.getElem?_eq_some_iff.1 h
  exact List.drop_eq_getElem_cons hlt

section Loop

variable {runner : Runner σ} {children : List Code} {steps position : Nat} {child : Code}
  {last : Value} {s s' : σ}

/-- A turn goes on to the next child, or to a label of the block, or it breaks the block. -/
theorem turn_cases (children : List Code) (o : Outcome σ (Flow Value)) :
    (∃ v s', o = .done (.value v) s') ∨
    (∃ label i s', o = .done (.jump label) s' ∧ position? children label = some i) ∨
    o.Breaks (labels children) := by
  rcases o with ⟨v | label, s'⟩ | ⟨e, s'⟩ | _
  · exact .inl ⟨v, s', rfl⟩
  · cases hposition : position? children label with
    | some i => exact .inr (.inl ⟨label, i, s', rfl, hposition⟩)
    | none => exact .inr (.inr (position?_eq_none_iff.1 hposition))
  · exact .inr (.inr trivial)
  · exact .inr (.inr trivial)

theorem runBlock_value (hchild : children[position]? = some child) {v : Value}
    (ho : runner child s = .done (.value v) s') :
    runBlock runner children (steps + 1) (children.drop position) last s =
      runBlock runner children steps (children.drop (position + 1)) v s' := by
  rw [drop_of_getElem? hchild]
  simp only [runBlock, ho]

theorem runBlock_resume (hchild : children[position]? = some child) {label : Name} {i : Nat}
    (ho : runner child s = .done (.jump label) s') (hi : position? children label = some i) :
    runBlock runner children (steps + 1) (children.drop position) last s =
      runBlock runner children steps (children.drop i) last s' := by
  rw [drop_of_getElem? hchild]
  simp only [runBlock, ho, hi]

theorem runBlock_break (hchild : children[position]? = some child)
    (ho : (runner child s).Breaks (labels children)) :
    runBlock runner children (steps + 1) (children.drop position) last s = runner child s := by
  rw [drop_of_getElem? hchild]
  rcases Outcome.breaks_cases ho with ⟨label, s', hrun, hlabel⟩ | ⟨e, s', hrun⟩ | hrun
  · simp only [runBlock, hrun, position?_eq_none_iff.2 hlabel]
  · simp only [runBlock, hrun]
  · simp only [runBlock, hrun]

theorem turns_value (hchild : children[position]? = some child) {v : Value}
    (ho : runner child s = .done (.value v) s') :
    turns runner children (steps + 1) position s =
      ⟨position, child, s⟩ :: turns runner children steps (position + 1) s' := by
  simp only [turns, hchild, ho]

theorem turns_resume (hchild : children[position]? = some child) {label : Name} {i : Nat}
    (ho : runner child s = .done (.jump label) s') (hi : position? children label = some i) :
    turns runner children (steps + 1) position s =
      ⟨position, child, s⟩ :: turns runner children steps i s' := by
  simp only [turns, hchild, ho, hi]

theorem turns_break (hchild : children[position]? = some child)
    (ho : (runner child s).Breaks (labels children)) :
    turns runner children (steps + 1) position s = [⟨position, child, s⟩] := by
  rcases Outcome.breaks_cases ho with ⟨label, s', hrun, hlabel⟩ | ⟨e, s', hrun⟩ | hrun
  · simp only [turns, hchild, hrun, position?_eq_none_iff.2 hlabel]
  · simp only [turns, hchild, hrun]
  · simp only [turns, hchild, hrun]

theorem turns_end (hchild : children[position]? = none) (steps : Nat) (s : σ) :
    turns runner children steps position s = [] := by
  cases steps with
  | zero => rfl
  | succ steps => simp only [turns, hchild]

/-- While a child is left to run, the value before it does not matter. -/
theorem runBlock_last (steps : Nat) (hposition : position < children.length) (last last' : Value)
    (s : σ) : runBlock runner children steps (children.drop position) last s =
      runBlock runner children steps (children.drop position) last' s := by
  induction steps generalizing position s with
  | zero => rfl
  | succ steps ih =>
    have hchild := List.getElem?_eq_getElem hposition
    rcases turn_cases children (runner children[position] s) with
      ⟨v, s', ho⟩ | ⟨label, i, s', ho, hi⟩ | ho
    · rw [runBlock_value hchild ho, runBlock_value hchild ho]
    · rw [runBlock_resume hchild ho hi, runBlock_resume hchild ho hi]
      exact ih (position?_lt hi) s'
    · rw [runBlock_break hchild ho, runBlock_break hchild ho]

theorem Course.cons {i : Nat} {ts : List (Turn σ)} (hchild : children[position]? = some child)
    (h : Course runner children i s' ts)
    (hnext : ∀ t ∈ ts.head?, Turn.Next runner children ⟨position, child, s⟩ t) :
    Course runner children position s (⟨position, child, s⟩ :: ts) where
  first := by simp
  next := List.isChain_cons.2 ⟨hnext, h.next⟩
  child := List.forall_mem_cons.2 ⟨hchild, h.child⟩

/-- The turns of a block come one after the other. -/
theorem course_turns (steps position : Nat) (s : σ) :
    Course runner children position s (turns runner children steps position s) := by
  have hnone : ∀ position (s : σ), Course runner children position s [] :=
    fun position s => ⟨by simp, .nil, by simp⟩
  induction steps generalizing position s with
  | zero => exact hnone position s
  | succ steps ih =>
    cases hchild : children[position]? with
    | none =>
      rw [turns_end hchild]
      exact hnone position s
    | some child =>
      rcases turn_cases children (runner child s) with ⟨v, s', ho⟩ | ⟨label, i, s', ho, hi⟩ | ho
      · rw [turns_value hchild ho]
        have hrest := ih (position + 1) s'
        refine hrest.cons hchild fun t ht => .inl ⟨v, ?_, (hrest.first t ht).1⟩
        rw [(hrest.first t ht).2]
        exact ho
      · rw [turns_resume hchild ho hi]
        have hrest := ih i s'
        refine hrest.cons hchild fun t ht => .inr ⟨label, ?_, ?_⟩
        · rw [(hrest.first t ht).2]
          exact ho
        · rw [(hrest.first t ht).1]
          exact hi
      · rw [turns_break hchild ho]
        exact (hnone position s).cons hchild (by simp)

/-- A loop that ends does so as its last turn does: after a value, that of the last child,
there is nothing left to run, and all else breaks the block. -/
theorem exists_last_turn (hposition : position < children.length) {o : Outcome σ (Flow Value)}
    (h : runBlock runner children steps (children.drop position) last s = o)
    (hends : o ≠ .outOfFuel) :
    ∃ t, (turns runner children steps position s).getLast? = some t ∧
      runner t.child t.state = o ∧
      ((∃ v s', o = .done (.value v) s') ∧ t.position + 1 = children.length ∨
        o.Breaks (labels children)) := by
  induction steps generalizing position last s with
  | zero => exact absurd h.symm hends
  | succ steps ih =>
    have hchild := List.getElem?_eq_getElem hposition
    rcases turn_cases children (runner children[position] s) with
      ⟨v, s', ho⟩ | ⟨label, i, s', ho, hi⟩ | ho
    · rw [runBlock_value hchild ho] at h
      rw [turns_value hchild ho, List.getLast?_cons]
      by_cases hlast : position + 1 = children.length
      · have hnone : children[position + 1]? = none := List.getElem?_eq_none (by omega)
        have hdrop : children.drop (position + 1) = [] := List.drop_eq_nil_of_le (by omega)
        have hdone : o = .done (.value v) s' := by
          rw [hdrop] at h
          cases steps with
          | zero => exact absurd h.symm hends
          | succ steps => exact h.symm
        rw [turns_end hnone]
        exact ⟨_, rfl, ho.trans hdone.symm, .inl ⟨⟨v, s', hdone⟩, hlast⟩⟩
      · obtain ⟨t, ht, hrun, hends⟩ := ih (by omega) h
        rw [ht]
        exact ⟨t, rfl, hrun, hends⟩
    · rw [runBlock_resume hchild ho hi] at h
      rw [turns_resume hchild ho hi, List.getLast?_cons]
      obtain ⟨t, ht, hrun, hends⟩ := ih (position?_lt hi) h
      rw [ht]
      exact ⟨t, rfl, hrun, hends⟩
    · rw [runBlock_break hchild ho] at h
      rw [turns_break hchild ho]
      exact ⟨_, rfl, h, .inr (h ▸ ho)⟩

/-- From any of its turns on, a block goes on as a loop that starts at that turn. -/
theorem turns_of_mem {t : Turn σ} (h : t ∈ turns runner children steps position s)
    (last : Value) : ∃ earlier left last',
      turns runner children steps position s =
        earlier ++ turns runner children (left + 1) t.position t.state ∧
      runBlock runner children steps (children.drop position) last s =
        runBlock runner children (left + 1) (children.drop t.position) last' t.state := by
  induction steps generalizing position s last with
  | zero => exact absurd h List.not_mem_nil
  | succ steps ih =>
    cases hchild : children[position]? with
    | none =>
      rw [turns_end hchild] at h
      exact absurd h List.not_mem_nil
    | some child =>
      by_cases hfirst : t = ⟨position, child, s⟩
      · subst hfirst
        exact ⟨[], steps, last, rfl, rfl⟩
      · rcases turn_cases children (runner child s) with
          ⟨v, s', ho⟩ | ⟨label, i, s', ho, hi⟩ | ho
        · rw [turns_value hchild ho] at h ⊢
          obtain ⟨earlier, left, last', hturns, hrun⟩ :=
            ih (List.mem_of_ne_of_mem hfirst h) v
          refine ⟨_ :: earlier, left, last', by rw [hturns]; rfl, ?_⟩
          rw [runBlock_value hchild ho, hrun]
        · rw [turns_resume hchild ho hi] at h ⊢
          obtain ⟨earlier, left, last', hturns, hrun⟩ :=
            ih (List.mem_of_ne_of_mem hfirst h) last
          refine ⟨_ :: earlier, left, last', by rw [hturns]; rfl, ?_⟩
          rw [runBlock_resume hchild ho hi, hrun]
        · rw [turns_break hchild ho] at h
          exact absurd (List.mem_singleton.1 h) hfirst

/-- The points of a block are those of its turns. -/
theorem blockPoints_eq (points : Code → σ → List (Event σ)) (steps position : Nat) (s : σ) :
    Machine.blockPoints runner points children steps (children.drop position) s =
      (turns runner children steps position s).flatMap fun t => points t.child t.state := by
  induction steps generalizing position s with
  | zero => rfl
  | succ steps ih =>
    cases hchild : children[position]? with
    | none =>
      rw [turns_end hchild, List.drop_eq_nil_of_le (List.getElem?_eq_none_iff.1 hchild)]
      rfl
    | some child =>
      rw [drop_of_getElem? hchild]
      rcases turn_cases children (runner child s) with ⟨v, s', ho⟩ | ⟨label, i, s', ho, hi⟩ | ho
      · rw [turns_value hchild ho, List.flatMap_cons, ← ih]
        simp only [Machine.blockPoints, ho]
      · rw [turns_resume hchild ho hi, List.flatMap_cons, ← ih]
        simp only [Machine.blockPoints, ho, hi]
      · rw [turns_break hchild ho, List.flatMap_singleton]
        rcases Outcome.breaks_cases ho with ⟨label, s', hrun, hlabel⟩ | ⟨e, s', hrun⟩ | hrun
        · simp [Machine.blockPoints, hrun, position?_eq_none_iff.2 hlabel]
        · simp [Machine.blockPoints, hrun]
        · simp [Machine.blockPoints, hrun]

end Loop

def turnsOf (host : Host η) (fuel : Nat) (children : List Code) (c : Config η) :
    List (Turn (Config η)) :=
  turns (run host fuel) children fuel 0 c

theorem make_eq_ok_iff {children : List Code} {block : Code} :
    make children = .ok block ↔ (labels children).Nodup ∧ block = .block children := by
  rw [← repeatedLabel?_eq_none_iff, make]
  cases repeatedLabel? children with
  | none => simp [eq_comm]
  | some name => simp

/-- Loops at the same place in the same state end alike, whatever their bounds. -/
theorem runBlock_unique {host : Host η} {fuel fuel' steps steps' : Nat}
    {children rest : List Code} {last : Value} {c : Config η}
    (h : runBlock (run host fuel) children steps rest last c ≠ .outOfFuel)
    (h' : runBlock (run host fuel') children steps' rest last c ≠ .outOfFuel) :
    runBlock (run host fuel) children steps rest last c =
      runBlock (run host fuel') children steps' rest last c := by
  have hbelow := runBlock_below (run_below host (Nat.le_max_left fuel fuel')) children
    (Nat.le_max_left steps steps') rest last c
  have hbelow' := runBlock_below (run_below host (Nat.le_max_right fuel fuel')) children
    (Nat.le_max_right steps steps') rest last c
  rw [← hbelow.eq h, hbelow'.eq h']

/-- A run of a block that ends does so as a loop from any of its turns on. -/
theorem run_of_mem_turnsOf {host : Host η} {fuel : Nat} {children : List Code} {c : Config η}
    {t : Turn (Config η)} (h : t ∈ turnsOf host fuel children c) :
    ∃ left, run host (fuel + 1) (.block children) c =
      runBlock (run host fuel) children left (children.drop t.position) .absent t.state := by
  obtain ⟨earlier, left, last, -, hrun⟩ := turns_of_mem h .absent
  have hchild := (course_turns fuel 0 c).child t h
  have hposition : t.position < children.length := (List.getElem?_eq_some_iff.1 hchild).1
  exact ⟨left + 1, hrun.trans (runBlock_last (left + 1) hposition last .absent t.state)⟩

end Block

open Block in
/-- What a block ends with. Its turns come one after the other from its first child on, and
are all that it runs. If it ends with a value, it has no children, and nothing has
happened, or its last turn was that of its last child and gave this value. If it ends with
a jump, the label is none of the block's, and the last turn ended with this jump, in the
state that is left. So a loop that goes on at a label does not depend on the value
before it, and two runs of the block that come to the same turn end in the same way,
whatever came before. -/
theorem block_ends_as_last_turn (host : Host η) {children : List Code} {block : Code}
    (hblock : Block.make children = .ok block) (fuel : Nat) (c : Config η) :
    Course (run host fuel) children 0 c (turnsOf host fuel children c) ∧
    (copying host).trace (fuel + 1) block c =
      .node fuel block c :: (turnsOf host fuel children c).flatMap
        (fun t => (copying host).trace fuel t.child t.state) ∧
    (∀ v c', run host (fuel + 1) block c = .done (.value v) c' →
      children = [] ∧ v = .absent ∧ c' = c ∨
      ∃ t, (turnsOf host fuel children c).getLast? = some t ∧
        t.position + 1 = children.length ∧
        run host fuel t.child t.state = .done (.value v) c') ∧
    (∀ label c', run host (fuel + 1) block c = .done (.jump label) c' →
      label ∉ labels children ∧
      ∃ t, (turnsOf host fuel children c).getLast? = some t ∧
        run host fuel t.child t.state = .done (.jump label) c') ∧
    (∀ label i, position? children label = some i → ∀ steps last last' (s : Config η),
      runBlock (run host fuel) children steps (children.drop i) last s =
        runBlock (run host fuel) children steps (children.drop i) last' s) ∧
    ∀ fuel' c' t, t ∈ turnsOf host fuel children c → t ∈ turnsOf host fuel' children c' →
      run host (fuel + 1) block c ≠ .outOfFuel → run host (fuel' + 1) block c' ≠ .outOfFuel →
      run host (fuel + 1) block c = run host (fuel' + 1) block c' := by
  obtain ⟨-, rfl⟩ := make_eq_ok_iff.1 hblock
  have hlast : ∀ o, run host (fuel + 1) (.block children) c = o → o ≠ .outOfFuel →
      0 < children.length → ∃ t, (turnsOf host fuel children c).getLast? = some t ∧
        run host fuel t.child t.state = o ∧
        ((∃ v s', o = .done (.value v) s') ∧ t.position + 1 = children.length ∨
          o.Breaks (labels children)) :=
    fun o ho hends hlength => exists_last_turn hlength ho hends
  -- Without children the loop is over at once.
  have hempty : children = [] → ∀ o, run host (fuel + 1) (.block children) c = o →
      o = .outOfFuel ∨ o = .done (.value .absent) c := by
    rintro rfl o rfl
    cases fuel with
    | zero => exact .inl rfl
    | succ fuel => exact .inr rfl
  refine ⟨course_turns fuel 0 c, ?_, ?_, ?_, ?_, ?_⟩
  · exact congrArg _ (blockPoints_eq _ fuel 0 c)
  · intro v c' h
    by_cases hnil : children = []
    · rcases hempty hnil _ h with hfuel | hdone
      · cases hfuel
      · cases hdone
        exact .inl ⟨hnil, rfl, rfl⟩
    · obtain ⟨t, ht, hrun, ⟨-, hposition⟩ | hbreaks⟩ :=
        hlast _ h (fun hfuel => by cases hfuel) (List.length_pos_iff.2 hnil)
      · exact .inr ⟨t, ht, hposition, hrun⟩
      · exact absurd hbreaks fun hfalse => hfalse
  · intro label c' h
    by_cases hnil : children = []
    · rcases hempty hnil _ h with hfuel | hdone
      · cases hfuel
      · cases hdone
    · obtain ⟨t, ht, hrun, ⟨⟨v, s', hvalue⟩, -⟩ | hbreaks⟩ :=
        hlast _ h (fun hfuel => by cases hfuel) (List.length_pos_iff.2 hnil)
      · cases hvalue
      · exact ⟨hbreaks, t, ht, hrun⟩
  · intro label i hi steps last last' s
    exact runBlock_last steps (position?_lt hi) last last' s
  · intro fuel' c' t ht ht' h h'
    obtain ⟨left, hrun⟩ := run_of_mem_turnsOf ht
    obtain ⟨left', hrun'⟩ := run_of_mem_turnsOf ht'
    rw [hrun] at h ⊢
    rw [hrun'] at h' ⊢
    exact runBlock_unique h h'

def retrying : List Code := [
  .define "x",
  .label "again",
  .when (.var "x") (.goto "out"),
  .assign "x" (.const (.text "stale")),
  .goto "again",
  .label "out"]

/-- The value of `retrying` is that of its last label, and not the one from before the
jumps. -/
theorem retrying_ends_as_last_turn : ∃ c' t,
    Block.make retrying = .ok (.block retrying) ∧
    run echoing 10 (.block retrying) (Interpreter.new {} ()).config =
      .done (.value .absent) c' ∧ c'.get "x" = .ok (.text "stale") ∧
    (Block.turnsOf echoing 9 retrying (Interpreter.new {} ()).config).getLast? = some t ∧
    t.position + 1 = retrying.length ∧
    run echoing 9 t.child t.state = .done (.value .absent) c' := by
  have hmake : Block.make retrying = .ok (.block retrying) := rfl
  have hends := block_ends_as_last_turn echoing hmake 9 (Interpreter.new {} ()).config
  rcases hends.2.2.1 .absent _ rfl with ⟨hnil, -⟩ | ⟨t, ht, hposition, hrun⟩
  · cases hnil
  · exact ⟨_, t, hmake, rfl, rfl, ht, hposition, hrun⟩

end Treewalk
