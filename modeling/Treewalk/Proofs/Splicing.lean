import Treewalk.Proofs.Turns

/-!
Blocks within blocks. Until a child jumps to a label of its block, the children run straight
on, and what a block ends with is found by hopping from one such straight run to the next.
So a part of a block that declares no labels can be exchanged for one that runs straight on
to the same end. Main statement: a block without labels may be spliced into the block around
it, and that makes no difference to how the block ends.
-/
namespace Treewalk

variable {η σ α : Type}

def Code.EndsWith (host : Host η) (n : Code) (c : Config η)
    (o : Outcome (Config η) (Flow Value)) : Prop :=
  o ≠ .outOfFuel ∧ ∃ fuel, run host fuel n c = o

/-- What code ends with it ends with under any larger bound. -/
theorem Code.EndsWith.eq_of_le {host : Host η} {n : Code} {c : Config η}
    {o : Outcome (Config η) (Flow Value)} (h : n.EndsWith host c o) :
    ∃ fuel, ∀ fuel', fuel ≤ fuel' → run host fuel' n c = o := by
  obtain ⟨hne, fuel, rfl⟩ := h
  exact ⟨fuel, fun fuel' hle => run_eq_of_le hle hne⟩

/-- A computation gives a value or none. -/
theorem Outcome.value_or_breaks (o : Outcome σ (Flow α)) :
    (∃ v s, o = .done (.value v) s) ∨ o.Breaks [] := by
  rcases o with ⟨v | label, s⟩ | ⟨e, s⟩ | _
  · exact .inl ⟨v, s, rfl⟩
  · exact .inr List.not_mem_nil
  · exact .inr trivial
  · exact .inr trivial

namespace Block

/-- The children run one after the other up to the first that gives no value, and end as the
last one that runs. -/
def Straight (ends : Code → σ → Outcome σ (Flow Value) → Prop) :
    List Code → Value → σ → Outcome σ (Flow Value) → Prop
  | [], last, s, o => o = .done (.value last) s
  | child :: rest, _, s, o =>
    (∃ v s', ends child s (.done (.value v) s') ∧ Straight ends rest v s' o) ∨
    (ends child s o ∧ o.Breaks [])

/-- The children run straight on from where they are, and after each jump to a label of the
block straight on from there. What came before a jump has no bearing on the value. -/
inductive Hops (ends : Code → σ → Outcome σ (Flow Value) → Prop) (children : List Code) :
    List Code → Value → σ → Outcome σ (Flow Value) → Prop
  | straight {rest : List Code} {last : Value} {s : σ} {o : Outcome σ (Flow Value)} :
      Straight ends rest last s o →
      (∀ label s', o = .done (.jump label) s' → label ∉ labels children) →
      Hops ends children rest last s o
  | jump {rest : List Code} {last : Value} {s s' : σ} {label : Name} {i : Nat}
      {o : Outcome σ (Flow Value)} :
      Straight ends rest last s (.done (.jump label) s') → position? children label = some i →
      Hops ends children (children.drop i) .absent s' o → Hops ends children rest last s o

section Straight

variable {ends : Code → σ → Outcome σ (Flow Value) → Prop} {last : Value} {s : σ}
  {o : Outcome σ (Flow Value)}

/-- One list of children after another runs like a child of its own. -/
theorem straight_append (first second : List Code) :
    Straight ends (first ++ second) last s o ↔
      (∃ v s', Straight ends first last s (.done (.value v) s') ∧
        Straight ends second v s' o) ∨
      (Straight ends first last s o ∧ o.Breaks []) := by
  induction first generalizing last s with
  | nil =>
    constructor
    · intro h
      exact .inl ⟨last, s, rfl, h⟩
    · rintro (⟨v, s', hfirst, h⟩ | ⟨rfl, hbreaks⟩)
      · cases hfirst
        exact h
      · exact absurd hbreaks fun hfalse => hfalse
  | cons child first ih =>
    constructor
    · rintro (⟨v, s', hchild, hrest⟩ | hchild)
      · rcases ih.1 hrest with ⟨w, t, hfirst, hsecond⟩ | ⟨hfirst, hbreaks⟩
        · exact .inl ⟨w, t, .inl ⟨v, s', hchild, hfirst⟩, hsecond⟩
        · exact .inr ⟨.inl ⟨v, s', hchild, hfirst⟩, hbreaks⟩
      · exact .inr ⟨.inr hchild, hchild.2⟩
    · rintro (⟨w, t, ⟨v, s', hchild, hfirst⟩ | ⟨-, hbreaks⟩, hsecond⟩ |
        ⟨⟨v, s', hchild, hfirst⟩ | hchild, hbreaks⟩)
      · exact .inl ⟨v, s', hchild, ih.2 (.inl ⟨w, t, hfirst, hsecond⟩)⟩
      · exact absurd hbreaks fun hfalse => hfalse
      · exact .inl ⟨v, s', hchild, ih.2 (.inr ⟨hfirst, hbreaks⟩)⟩
      · exact .inr hchild

theorem straight_singleton (n : Code) : Straight ends [n] last s o ↔ ends n s o := by
  constructor
  · rintro (⟨v, s', hn, rfl⟩ | ⟨hn, -⟩)
    · exact hn
    · exact hn
  · intro hn
    rcases o.value_or_breaks with ⟨v, s', rfl⟩ | hbreaks
    · exact .inl ⟨v, s', hn, rfl⟩
    · exact .inr ⟨hn, hbreaks⟩

/-- While there is a child to run, the value before it does not matter. -/
theorem straight_last {rest : List Code} (h : rest ≠ []) (last last' : Value) :
    Straight ends rest last s o ↔ Straight ends rest last' s o := by
  cases rest with
  | nil => exact absurd rfl h
  | cons child rest => rfl

/-- Parts that run straight on to the same ends can be exchanged. -/
theorem Straight.exchange {part part' : List Code}
    (hpart : ∀ last s o, Straight ends part last s o → Straight ends part' last s o)
    {before after : List Code} (h : Straight ends (before ++ (part ++ after)) last s o) :
    Straight ends (before ++ (part' ++ after)) last s o := by
  have htail : ∀ last s o, Straight ends (part ++ after) last s o →
      Straight ends (part' ++ after) last s o := by
    intro last s o h
    rw [straight_append] at h ⊢
    rcases h with ⟨v, s', hfirst, hafter⟩ | ⟨hfirst, hbreaks⟩
    · exact .inl ⟨v, s', hpart _ _ _ hfirst, hafter⟩
    · exact .inr ⟨hpart _ _ _ hfirst, hbreaks⟩
  rw [straight_append] at h ⊢
  rcases h with ⟨v, s', hbefore, hrest⟩ | hbefore
  · exact .inl ⟨v, s', hbefore, htail _ _ _ hrest⟩
  · exact .inr hbefore

theorem Hops.cons {children rest : List Code} {child : Code} {v : Value} {s' : σ}
    (hchild : ends child s (.done (.value v) s')) (h : Hops ends children rest v s' o) :
    Hops ends children (child :: rest) last s o := by
  cases h with
  | straight hstraight hleaves => exact .straight (.inl ⟨v, s', hchild, hstraight⟩) hleaves
  | jump hstraight hposition h => exact .jump (.inl ⟨v, s', hchild, hstraight⟩) hposition h

/-- Without labels there is nowhere to hop to. -/
theorem hops_iff_straight {children rest : List Code} (h : labels children = []) :
    Hops ends children rest last s o ↔ Straight ends rest last s o := by
  constructor
  · intro hhops
    cases hhops with
    | straight hstraight hleaves => exact hstraight
    | jump hstraight hposition hhops =>
      have hmem := mem_labels_of_position? hposition
      rw [h] at hmem
      cases hmem
  · intro hstraight
    refine .straight hstraight fun label s' _ => ?_
    rw [h]
    exact List.not_mem_nil

end Straight

section Bounds

variable {host : Host η} {children rest : List Code} {child : Code} {last v : Value}
  {c c' : Config η} {o : Outcome (Config η) (Flow Value)}

/-- What is left of a block ends with the outcome, under every large enough bound on nesting
and on steps. -/
def EndsFrom (host : Host η) (children rest : List Code) (last : Value) (c : Config η)
    (o : Outcome (Config η) (Flow Value)) : Prop :=
  o ≠ .outOfFuel ∧ ∃ bound, ∀ fuel steps, bound ≤ fuel → bound ≤ steps →
    runBlock (run host fuel) children steps rest last c = o

theorem EndsFrom.done (host : Host η) (children : List Code) (last : Value) (c : Config η) :
    EndsFrom host children [] last c (.done (.value last) c) := by
  refine ⟨(fun heq => by cases heq), 1, ?_⟩
  intro fuel steps _ hsteps
  obtain ⟨steps, rfl⟩ : ∃ n, steps = n + 1 := ⟨steps - 1, by omega⟩
  rfl

theorem EndsFrom.value (hchild : child.EndsWith host c (.done (.value v) c'))
    (h : EndsFrom host children rest v c' o) : EndsFrom host children (child :: rest) last c o := by
  obtain ⟨bound, hbound⟩ := hchild.eq_of_le
  obtain ⟨hne, bound', hbound'⟩ := h
  refine ⟨hne, max bound bound' + 1, ?_⟩
  intro fuel steps hfuel hsteps
  obtain ⟨steps, rfl⟩ : ∃ n, steps = n + 1 := ⟨steps - 1, by omega⟩
  simp only [runBlock, hbound fuel (by omega)]
  exact hbound' fuel steps (by omega) (by omega)

theorem EndsFrom.resume {label : Name} {i : Nat}
    (hchild : child.EndsWith host c (.done (.jump label) c'))
    (hi : position? children label = some i)
    (h : EndsFrom host children (children.drop i) v c' o) :
    EndsFrom host children (child :: rest) last c o := by
  obtain ⟨bound, hbound⟩ := hchild.eq_of_le
  obtain ⟨hne, bound', hbound'⟩ := h
  refine ⟨hne, max bound bound' + 1, ?_⟩
  intro fuel steps hfuel hsteps
  obtain ⟨steps, rfl⟩ : ∃ n, steps = n + 1 := ⟨steps - 1, by omega⟩
  simp only [runBlock, hbound fuel (by omega), hi]
  rw [runBlock_last steps (position?_lt hi) last v]
  exact hbound' fuel steps (by omega) (by omega)

theorem EndsFrom.break (hchild : child.EndsWith host c o) (h : o.Breaks (labels children)) :
    EndsFrom host children (child :: rest) last c o := by
  obtain ⟨bound, hbound⟩ := hchild.eq_of_le
  refine ⟨hchild.1, bound + 1, ?_⟩
  intro fuel steps hfuel hsteps
  obtain ⟨steps, rfl⟩ : ∃ n, steps = n + 1 := ⟨steps - 1, by omega⟩
  simp only [runBlock, hbound fuel (by omega)]
  rcases Outcome.breaks_cases h with ⟨label, c', rfl, hlabel⟩ | ⟨e, c', rfl⟩ | rfl
  · simp only [position?_eq_none_iff.2 hlabel]
  · rfl
  · rfl

/-- A straight run that leaves the block is what the block ends with. -/
theorem EndsFrom.of_straight (h : Straight (Code.EndsWith host) rest last c o)
    (hleaves : ∀ label c', o = .done (.jump label) c' → label ∉ labels children) :
    EndsFrom host children rest last c o := by
  induction rest generalizing last c with
  | nil =>
    cases h
    exact .done host children last c
  | cons child rest ih =>
    rcases h with ⟨v, c', hchild, hrest⟩ | ⟨hchild, hbreaks⟩
    · exact .value hchild (ih hrest)
    · refine .break hchild ?_
      rcases o with ⟨v | label, c'⟩ | ⟨e, c'⟩ | _
      · exact hbreaks
      · exact hleaves label c' rfl
      · trivial
      · trivial

/-- After a straight run that jumps to a label of the block, the block ends as it does from
that label on. -/
theorem EndsFrom.of_jump {label : Name} {i : Nat}
    (h : Straight (Code.EndsWith host) rest last c (.done (.jump label) c'))
    (hi : position? children label = some i)
    (hrest : EndsFrom host children (children.drop i) v c' o) :
    EndsFrom host children rest last c o := by
  induction rest generalizing last c with
  | nil => cases h
  | cons child rest ih =>
    rcases h with ⟨w, d, hchild, h⟩ | ⟨hchild, -⟩
    · exact .value hchild (ih h)
    · exact .resume hchild hi hrest

theorem Hops.endsFrom (h : Hops (Code.EndsWith host) children rest last c o) :
    EndsFrom host children rest last c o := by
  induction h with
  | straight hstraight hleaves => exact .of_straight hstraight hleaves
  | jump hstraight hi h ih => exact .of_jump hstraight hi ih

/-- A loop that ends has hopped to its end. -/
theorem hops_of_runBlock {fuel steps : Nat}
    (h : runBlock (run host fuel) children steps rest last c = o) (hne : o ≠ .outOfFuel) :
    Hops (Code.EndsWith host) children rest last c o := by
  induction steps generalizing rest last c with
  | zero => exact absurd h.symm hne
  | succ steps ih =>
    cases rest with
    | nil =>
      cases h
      exact .straight rfl fun label c' heq => by cases heq
    | cons child rest =>
      have hchild : ∀ o', run host fuel child c = o' → o' ≠ .outOfFuel →
          child.EndsWith host c o' := fun o' ho' hne' => ⟨hne', fuel, ho'⟩
      simp only [runBlock] at h
      rcases ho : run host fuel child c with ⟨v | label, c'⟩ | ⟨e, c'⟩ | _ <;> rw [ho] at h
      · exact .cons (hchild _ ho fun heq => by cases heq) (ih h)
      · have hjump := hchild _ ho fun heq => by cases heq
        cases hi : position? children label with
        | some i =>
          simp only [hi] at h
          rw [runBlock_last steps (position?_lt hi) last .absent] at h
          exact .jump (.inr ⟨hjump, List.not_mem_nil⟩) hi (ih h)
        | none =>
          simp only [hi] at h
          cases h
          refine .straight (.inr ⟨hjump, List.not_mem_nil⟩) fun label' d heq => ?_
          cases heq
          exact position?_eq_none_iff.1 hi
      · cases h
        exact .straight (.inr ⟨hchild _ ho hne, trivial⟩) fun label d heq => by cases heq
      · exact absurd h.symm hne

/-- A block ends with what it hops to. -/
theorem endsWith_block_iff :
    (Code.block children).EndsWith host c o ↔
      Hops (Code.EndsWith host) children children .absent c o := by
  constructor
  · rintro ⟨hne, fuel, h⟩
    cases fuel with
    | zero => exact absurd h.symm hne
    | succ fuel => exact hops_of_runBlock h hne
  · intro h
    obtain ⟨hne, bound, hbound⟩ := h.endsFrom
    exact ⟨hne, bound + 1, hbound bound bound le_rfl le_rfl⟩

end Bounds

section Exchange

variable {ends : Code → σ → Outcome σ (Flow Value) → Prop} {label : Name} {last : Value} {s : σ}
  {o : Outcome σ (Flow Value)} {before part part' after rest rest' : List Code}

/-- Places in two blocks that differ in one part only: the part is ahead in both of them, or
what is ahead is the same. -/
inductive Abreast (part part' after : List Code) : List Code → List Code → Prop
  | ahead (before : List Code) :
      Abreast part part' after (before ++ (part ++ after)) (before ++ (part' ++ after))
  | past (rest : List Code) : Abreast part part' after rest rest

theorem labels_around (before after : List Code) (hpart : labels part = []) :
    labels (before ++ (part ++ after)) = labels before ++ labels after := by
  simp only [labels, List.filterMap_append] at hpart ⊢
  rw [hpart, List.nil_append]

theorem labels_exchange (before after : List Code) (hpart : labels part = [])
    (hpart' : labels part' = []) :
    labels (before ++ (part' ++ after)) = labels (before ++ (part ++ after)) :=
  (labels_around before after hpart').trans (labels_around before after hpart).symm

/-- A label outside the part has its places abreast in the two blocks. -/
theorem exists_abreast (hpart : labels part = []) (hpart' : labels part' = [])
    (hlabels : (labels (before ++ (part ++ after))).Nodup) {i : Nat}
    (hi : position? (before ++ (part ++ after)) label = some i) :
    ∃ i', position? (before ++ (part' ++ after)) label = some i' ∧
      Abreast part part' after ((before ++ (part ++ after)).drop i)
        ((before ++ (part' ++ after)).drop i') := by
  have hlabels' : (labels (before ++ (part' ++ after))).Nodup := by
    rwa [labels_exchange before after hpart hpart']
  -- Wherever the label is, it is found there in both blocks.
  have hfound : ∀ (front front' : List Code) {rest rest' : List Code},
      before ++ (part ++ after) = front ++ .label label :: rest →
      before ++ (part' ++ after) = front' ++ .label label :: rest' →
      Abreast part part' after (.label label :: rest) (.label label :: rest') →
      ∃ i', position? (before ++ (part' ++ after)) label = some i' ∧
        Abreast part part' after ((before ++ (part ++ after)).drop i)
          ((before ++ (part' ++ after)).drop i') := by
    intro front front' rest rest' hsplit hsplit' habreast
    obtain ⟨hposition, hdrop⟩ := position?_of_split hlabels hsplit
    obtain ⟨hposition', hdrop'⟩ := position?_of_split hlabels' hsplit'
    obtain rfl := Option.some.inj (hi.symm.trans hposition)
    refine ⟨front'.length, hposition', ?_⟩
    rw [hdrop, hdrop']
    exact habreast
  have hmem : label ∈ labels before ++ labels after := by
    rw [← labels_around before after hpart]
    exact mem_labels_of_position? hi
  rcases List.mem_append.1 hmem with hbefore | hafter
  · obtain ⟨front, mid, rfl⟩ := exists_split_of_mem_labels hbefore
    exact hfound front front (by simp) (by simp) (.ahead (.label label :: mid))
  · obtain ⟨mid, rest, rfl⟩ := exists_split_of_mem_labels hafter
    exact hfound (before ++ (part ++ mid)) (before ++ (part' ++ mid)) (by simp) (by simp)
      (.past (.label label :: rest))

/-- A part without labels can be exchanged for one that runs straight on to the same ends. -/
theorem Hops.exchange (hpart : labels part = []) (hpart' : labels part' = [])
    (hlabels : (labels (before ++ (part ++ after))).Nodup)
    (hstraight : ∀ last s o, Straight ends part last s o → Straight ends part' last s o)
    (h : Hops ends (before ++ (part ++ after)) rest last s o)
    (hplace : Abreast part part' after rest rest') :
    Hops ends (before ++ (part' ++ after)) rest' last s o := by
  -- Between two jumps the blocks run straight on to the same end, and a jump takes both to
  -- places that are abreast again.
  have hrun : ∀ {rest rest' : List Code} {last : Value} {s : σ} {o : Outcome σ (Flow Value)},
      Abreast part part' after rest rest' → Straight ends rest last s o →
      Straight ends rest' last s o := by
    intro rest rest' last s o hplace h
    cases hplace with
    | ahead before => exact h.exchange hstraight
    | past rest => exact h
  induction h generalizing rest' with
  | straight hrest hleaves =>
    refine .straight (hrun hplace hrest) ?_
    rwa [labels_exchange before after hpart hpart']
  | jump hjump hi h ih =>
    obtain ⟨i', hi', hnext⟩ := exists_abreast hpart hpart' hlabels hi
    exact .jump (hrun hplace hjump) hi' (ih hnext)

end Exchange

/-- A block without labels runs its children straight on. -/
theorem straight_block_iff {host : Host η} {inner : List Code} (hinner : inner ≠ [])
    (hlabels : labels inner = []) {last : Value} {c : Config η}
    {o : Outcome (Config η) (Flow Value)} :
    Straight (Code.EndsWith host) [.block inner] last c o ↔
      Straight (Code.EndsWith host) inner last c o := by
  rw [straight_singleton, endsWith_block_iff, hops_iff_straight hlabels,
    straight_last hinner .absent last]

end Block

open Block in
/-- A block without labels may be spliced into the block around it. If the block with the
inner block in it can be made, then so can the one with the children of the inner block in
its place. From every environment, with any cells and any output, the two end with the
same value, the same jump or the same error, and in the same state, or neither of them
ends. -/
theorem splicing_keeps_endings (host : Host η) {pre inner post : List Code} {nested : Code}
    (hinner : inner ≠ []) (hlabels : ∀ n ∈ inner, n.label? = none)
    (hnested : Block.make (pre ++ [.block inner] ++ post) = .ok nested) :
    ∃ spliced, Block.make (pre ++ inner ++ post) = .ok spliced ∧
      ∀ c o, nested.EndsWith host c o ↔ spliced.EndsWith host c o := by
  have hpart : labels inner = [] := List.filterMap_eq_nil_iff.2 hlabels
  have hblock : labels [.block inner] = [] := rfl
  rw [List.append_assoc] at hnested ⊢
  obtain ⟨hnodup, rfl⟩ := make_eq_ok_iff.1 hnested
  have hnodup' : (labels (pre ++ (inner ++ post))).Nodup := by
    rwa [labels_exchange pre post hblock hpart]
  refine ⟨_, make_eq_ok_iff.2 ⟨hnodup', rfl⟩, fun c o => ?_⟩
  rw [endsWith_block_iff, endsWith_block_iff]
  constructor
  · intro h
    refine h.exchange hblock hpart hnodup ?_ (.ahead pre)
    exact fun last c o => (straight_block_iff hinner hpart).1
  · intro h
    refine h.exchange hpart hblock hnodup' ?_ (.ahead pre)
    exact fun last c o => (straight_block_iff hinner hpart).2

/-- A block around some children: before them a label to go back to, and after them one to
leave for, past a child that is not run then. -/
def circling (part : List Code) : List Code :=
  [.define "x", .label "again"] ++ part ++
    [.assign "x" (.const (.text "missed")), .label "out", .var "x"]

def circle : List Code := [
  .when (.var "x") (.goto "out"),
  .assign "x" (.const (.text "once")),
  .goto "again"]

/-- With the circle as a block of its own or without, the jumps go the same way. -/
theorem circling_spliced : ∃ spliced c',
    Block.make (circling [.block circle]) = .ok (.block (circling [.block circle])) ∧
    Block.make (circling circle) = .ok spliced ∧
    (Code.block (circling [.block circle])).EndsWith echoing (Interpreter.new {} ()).config
      (.done (.value (.text "once")) c') ∧
    spliced.EndsWith echoing (Interpreter.new {} ()).config
      (.done (.value (.text "once")) c') := by
  have hmake : Block.make (circling [.block circle]) = .ok (.block (circling [.block circle])) :=
    rfl
  have hends : (Code.block (circling [.block circle])).EndsWith echoing
      (Interpreter.new {} ()).config (.done (.value (.text "once")) _) :=
    ⟨by simp, 12, rfl⟩
  obtain ⟨spliced, hspliced, halike⟩ :=
    splicing_keeps_endings echoing (show circle ≠ [] by simp [circle]) (by decide) hmake
  exact ⟨spliced, _, hmake, hspliced, hends, (halike _ _).1 hends⟩

end Treewalk
