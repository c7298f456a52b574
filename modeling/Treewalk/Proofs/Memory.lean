import Mathlib.Data.List.Induction
import Treewalk.Proofs.Aliasing
import Treewalk.Proofs.Histories

/-!
Many environments over one store of cells. Actions are carried out one after another,
each on environments and cells that are there. Main statement: what every environment
shows after a history is what the history says, a binding changes nothing in other
environments, and setting a cell shows just where that cell is bound.
-/
namespace Treewalk

structure Memory where
  environments : List Environment := []
  cells : Cells := {}

namespace Memory

def update (m : Memory) (env : Nat) (f : Environment → Environment × Cells) : Option Memory :=
  m.environments[env]?.map fun e => ⟨m.environments.set env (f e).1, (f e).2⟩

def act (m : Memory) : Action → Option Memory
  | .create => some { m with environments := m.environments ++ [.empty] }
  | .copy source =>
    m.environments[source]?.map fun e => { m with environments := m.environments ++ [e] }
  | .define env name v => m.update env fun e => (e.bindValue name v, m.cells)
  | .defineCell env name => m.update env fun e => e.bindCell m.cells name .absent
  | .attach env name cell =>
    if cell < m.cells.size then m.update env fun e => (e.bind name (.cell cell), m.cells)
    else none
  | .allocate v => some { m with cells := (m.cells.alloc v).2 }
  | .set cell v =>
    if cell < m.cells.size then some { m with cells := m.cells.set cell v } else none

def after (actions : List Action) : Option Memory := actions.foldlM act {}

def slot? (m : Memory) (env : Nat) (name : Name) : Option Slot :=
  m.environments[env]?.bind fun e => e.slot? name

end Memory

namespace Memory

inductive Change (m : Memory) (a : Action) : List Environment → Prop
  | created (h : a = .create) : Change m a (m.environments ++ [.empty])
  | copied {source : Nat} {e : Environment} (h : a = .copy source)
      (he : m.environments[source]? = some e) : Change m a (m.environments ++ [e])
  | bound {env : Nat} {name : Name} {slot : Slot} {e : Environment}
      (h : a.binding? m.cells.size = some (env, name, slot)) (he : m.environments[env]? = some e)
      (hmakes : a.makesEnvironment = false) :
      Change m a (m.environments.set env (e.bind name slot))
  | kept (h : a.binding? m.cells.size = none) (hmakes : a.makesEnvironment = false) :
      Change m a m.environments

inductive Refill (m : Memory) (a : Action) : Cells → Prop
  | made {v : Value} (h : a.filling? m.cells.size = some (m.cells.size, v))
      (hmakes : a.makesCell = true) : Refill m a (m.cells.alloc v).2
  | set {cell : CellId} {v : Value} (h : a.filling? m.cells.size = some (cell, v))
      (hcell : cell < m.cells.size) (hmakes : a.makesCell = false) : Refill m a (m.cells.set cell v)
  | kept (h : a.filling? m.cells.size = none) (hmakes : a.makesCell = false) : Refill m a m.cells

variable {m m' : Memory} {a : Action} {actions : List Action}

/-- What an action can do. -/
theorem effects_of_act (h : m.act a = some m') :
    m.Change a m'.environments ∧ m.Refill a m'.cells := by
  cases a with
  | create =>
    cases h
    exact ⟨.created rfl, .kept rfl rfl⟩
  | copy source =>
    obtain ⟨e, he, rfl⟩ := Option.map_eq_some_iff.1 h
    exact ⟨.copied rfl he, .kept rfl rfl⟩
  | define env name v =>
    obtain ⟨e, he, rfl⟩ := Option.map_eq_some_iff.1 h
    exact ⟨.bound rfl he rfl, .kept rfl rfl⟩
  | defineCell env name =>
    obtain ⟨e, he, rfl⟩ := Option.map_eq_some_iff.1 h
    exact ⟨.bound rfl he rfl, .made rfl rfl⟩
  | attach env name cell =>
    simp only [act] at h
    split at h
    · obtain ⟨e, he, rfl⟩ := Option.map_eq_some_iff.1 h
      exact ⟨.bound rfl he rfl, .kept rfl rfl⟩
    · cases h
  | allocate v =>
    cases h
    exact ⟨.kept rfl rfl, .made rfl rfl⟩
  | set cell v =>
    simp only [act] at h
    split at h
    · next hcell =>
      cases h
      exact ⟨.kept rfl rfl, .set rfl hcell rfl⟩
    · cases h

theorem length_of_act (h : m.act a = some m') :
    m'.environments.length = m.environments.length + a.makesEnvironment.toNat := by
  have hchange := (effects_of_act h).1
  generalize m'.environments = es at hchange
  cases hchange with
  | created h => simp [h, Action.makesEnvironment]
  | copied h he => simp [h, Action.makesEnvironment]
  | bound h he hmakes => simp [hmakes]
  | kept h hmakes => simp [hmakes]

theorem size_of_act (h : m.act a = some m') :
    m'.cells.size = m.cells.size + a.makesCell.toNat := by
  have hrefill := (effects_of_act h).2
  generalize m'.cells = cells at hrefill
  cases hrefill with
  | made h hmakes => simp [hmakes]
  | set h hcell hmakes => simp [hmakes]
  | kept h hmakes => simp [hmakes]

/-- An action is possible just when all that it refers to is there. -/
theorem act_isSome_iff : (m.act a).isSome ↔ a.Sound m.environments.length m.cells.size := by
  cases a with
  | create => simp [act, Action.Sound]
  | copy source => simp [act, Action.Sound]
  | define env name v => simp [act, update, Action.Sound]
  | defineCell env name => simp [act, update, Action.Sound]
  | attach env name cell =>
    by_cases hcell : cell < m.cells.size <;> simp [act, update, Action.Sound, hcell]
  | allocate v => simp [act, Action.Sound]
  | set cell v => by_cases hcell : cell < m.cells.size <;> simp [act, Action.Sound, hcell]

/-- A cell that an action binds is there afterwards. -/
theorem cell_lt_of_binding {env : Nat} {name : Name} {cell : CellId} (h : m.act a = some m')
    (hbinding : a.binding? m.cells.size = some (env, name, .cell cell)) :
    cell < m'.cells.size := by
  have hsound := act_isSome_iff.1 (Option.isSome_of_eq_some h)
  rw [size_of_act h]
  cases a with
  | defineCell env name =>
    cases hbinding
    exact Nat.lt_succ_self _
  | attach env name cell =>
    cases hbinding
    exact Nat.lt_of_lt_of_le hsound.2 (Nat.le_add_right ..)
  | _ => cases hbinding

/-- What a memory shows is what the history says. -/
structure Follows (m : Memory) (actions : List Action) : Prop where
  environments : m.environments.length = environmentsMade actions
  cells : m.cells.size = cellsMade actions
  slots : ∀ env name, Latest (Gave actions env name) (m.slot? env name)
  contents : ∀ cell < m.cells.size, Latest (Filled actions cell) (some (m.cells.get cell))
  bound : ∀ env name cell, m.slot? env name = some (.cell cell) → cell < m.cells.size

theorem follows_nil : Follows {} [] where
  environments := rfl
  cells := rfl
  slots env name := .never fun time slot h => absurd h.time_lt (Nat.not_lt_zero time)
  contents cell hcell := absurd hcell (Nat.not_lt_zero cell)
  bound env name cell h := by cases h

theorem slot?_append {e : Environment} (h : m'.environments = m.environments ++ [e]) (env : Nat)
    (name : Name) :
    m'.slot? env name = if env = m.environments.length then e.slot? name else m.slot? env name := by
  simp only [slot?, h]
  rcases Nat.lt_trichotomy env m.environments.length with hlt | rfl | hgt
  · rw [List.getElem?_append_left hlt, if_neg (Nat.ne_of_lt hlt)]
  · simp
  · rw [if_neg (Nat.ne_of_gt hgt), List.getElem?_eq_none (Nat.le_of_lt hgt),
      List.getElem?_eq_none (by rw [List.length_append]; exact hgt)]

theorem slot?_set {e : Environment} {env : Nat} {name : Name} {slot : Slot}
    (h : m'.environments = m.environments.set env (e.bind name slot))
    (he : m.environments[env]? = some e) (other : Nat) (x : Name) :
    m'.slot? other x = if other = env ∧ x = name then some slot else m.slot? other x := by
  have hlt : env < m.environments.length := (List.getElem?_eq_some_iff.1 he).1
  simp only [slot?, h]
  by_cases hother : other = env
  · subst hother
    simp [List.getElem?_set_self hlt, he, Environment.slot?_bind]
  · rw [List.getElem?_set_ne (Ne.symm hother), if_neg fun h => hother h.1]

theorem slot?_of_length_le {env : Nat} (h : m.environments.length ≤ env) (name : Name) :
    m.slot? env name = none := by
  simp [slot?, List.getElem?_eq_none h]

namespace Follows

/-- One more action makes its binding the latest for its environment and name, hands the
bindings of the source on to a copy, and leaves the latest binding of all others. -/
theorem slots_act (hm : m.Follows actions) (h : m.act a = some m') (env : Nat) (name : Name) :
    Latest (Gave (actions ++ [a]) env name) (m'.slot? env name) := by
  have hold := hm.slots env name
  have hchange := (effects_of_act h).1
  generalize hes : m'.environments = es at hchange
  cases hchange with
  | created ha =>
    subst ha
    have hslot : m'.slot? env name = m.slot? env name := by
      rw [slot?_append hes]
      split
      · next henv => rw [slot?_of_length_le (Nat.le_of_eq henv.symm), Environment.slot?_empty]
      · rfl
    rw [hslot]
    exact hold.congr fun time slot => by simp [gave_snoc_iff, Action.binding?]
  | @copied source e ha he =>
    subst ha
    rw [slot?_append hes, hm.environments]
    split
    · next henv =>
      -- The new environment has no bindings yet but those that the source had.
      have hnone : m.slot? env name = none :=
        slot?_of_length_le (Nat.le_of_eq (hm.environments.trans henv.symm)) name
      have hsource : m.slot? source name = e.slot? name := by simp [slot?, he]
      rw [hnone] at hold
      rw [← hsource]
      cases hold with
      | never hnever =>
        exact (hm.slots source name).congr fun time slot => by
          simp [gave_snoc_iff, Action.binding?, henv, henv ▸ hnever time slot]
    · next henv =>
      exact hold.congr fun time slot => by simp [gave_snoc_iff, Action.binding?, henv]
  | @bound env' name' slot' e hbinding he hmakes =>
    rw [hm.cells] at hbinding
    rw [slot?_set hes he]
    split
    · next hsame =>
      obtain ⟨rfl, rfl⟩ := hsame
      exact .last (gave_snoc_iff.2 (.inr (.inl ⟨rfl, hbinding⟩)))
        fun time slot hgave => time_le_of_lt hgave.time_lt
    · next hother =>
      refine hold.congr fun time slot => ?_
      rw [gave_snoc_iff, hbinding]
      constructor
      · rintro (hgave | ⟨-, heq⟩ | ⟨-, source, ha, -⟩)
        · exact hgave
        · cases heq
          exact absurd ⟨rfl, rfl⟩ hother
        · exact absurd ha (Action.ne_copy hmakes source)
      · exact .inl
  | kept hbinding hmakes =>
    rw [hm.cells] at hbinding
    have hslot : m'.slot? env name = m.slot? env name := by simp [slot?, hes]
    rw [hslot]
    exact hold.congr fun time slot => by simp [gave_snoc_iff, hbinding, Action.ne_copy hmakes]

/-- One more action that fills a cell is the latest to do so. -/
theorem contents_act (hm : m.Follows actions) (h : m.act a = some m') {cell : CellId}
    (hcell : cell < m'.cells.size) :
    Latest (Filled (actions ++ [a]) cell) (some (m'.cells.get cell)) := by
  have hlast : ∀ {v}, a.filling? m.cells.size = some (cell, v) →
      Latest (Filled (actions ++ [a]) cell) (some v) := by
    intro v hfilling
    rw [hm.cells] at hfilling
    exact .last (filled_snoc_iff.2 (.inr ⟨rfl, hfilling⟩))
      fun time u hfilled => time_le_of_lt hfilled.time_lt
  have hkept : (∀ v, a.filling? m.cells.size ≠ some (cell, v)) → cell < m.cells.size →
      Latest (Filled (actions ++ [a]) cell) (some (m.cells.get cell)) := by
    intro hother hlt
    rw [hm.cells] at hother
    exact (hm.contents cell hlt).congr fun time v => by simp [filled_snoc_iff, hother]
  have hrefill := (effects_of_act h).2
  generalize m'.cells = cells at hrefill hcell
  cases hrefill with
  | made hfilling hmakes =>
    rw [Cells.get_alloc]
    split
    · next heq => exact hlast (heq ▸ hfilling)
    · next hne =>
      refine hkept (fun v hv => ?_) ?_
      · rw [hfilling] at hv
        cases hv
        exact hne rfl
      · rw [Cells.size_alloc] at hcell
        exact Nat.lt_of_le_of_ne (Nat.le_of_lt_succ hcell) hne
  | set hfilling hlt hmakes =>
    rw [Cells.get_set _ hlt]
    split
    · next heq => exact hlast (heq ▸ hfilling)
    · next hne =>
      refine hkept (fun v hv => ?_) (by simpa using hcell)
      rw [hfilling] at hv
      cases hv
      exact hne rfl
  | kept hfilling hmakes => exact hkept (fun v hv => by simp [hfilling] at hv) hcell

theorem bound_act (hm : m.Follows actions) (h : m.act a = some m') {env : Nat} {name : Name}
    {cell : CellId} (hslot : m'.slot? env name = some (.cell cell)) : cell < m'.cells.size := by
  have hold : ∀ env, m.slot? env name = some (.cell cell) → cell < m'.cells.size := by
    intro env hslot
    rw [size_of_act h]
    exact Nat.lt_of_lt_of_le (hm.bound env name cell hslot) (Nat.le_add_right ..)
  have hchange := (effects_of_act h).1
  generalize hes : m'.environments = es at hchange
  cases hchange with
  | created ha =>
    rw [slot?_append hes] at hslot
    split at hslot
    · cases hslot
    · exact hold env hslot
  | @copied source e ha he =>
    rw [slot?_append hes] at hslot
    split at hslot
    · exact hold source (by simpa [slot?, he] using hslot)
    · exact hold env hslot
  | bound hbinding he hmakes =>
    rw [slot?_set hes he] at hslot
    split at hslot
    · cases hslot
      exact cell_lt_of_binding h hbinding
    · exact hold env hslot
  | kept hbinding hmakes => exact hold env (by simpa [slot?, hes] using hslot)

/-- One more action keeps the memory with its history. -/
theorem act (hm : m.Follows actions) (h : m.act a = some m') : m'.Follows (actions ++ [a]) where
  environments := by rw [length_of_act h, environmentsMade_snoc, hm.environments]
  cells := by rw [size_of_act h, cellsMade_snoc, hm.cells]
  slots := hm.slots_act h
  contents _ hcell := hm.contents_act h hcell
  bound _ _ _ hslot := hm.bound_act h hslot

end Follows

theorem after_snoc (actions : List Action) (a : Action) :
    after (actions ++ [a]) = (after actions).bind fun m => m.act a := by
  simp [after, List.foldlM_append]

/-- What a history says is so after it. -/
theorem follows_of_after (h : after actions = some m) : m.Follows actions := by
  -- A history grows at its end, so that the induction takes its last action away.
  induction actions using List.reverseRecOn generalizing m with
  | nil =>
    cases h
    exact follows_nil
  | append_singleton actions a ih =>
    rw [after_snoc] at h
    obtain ⟨m', hactions, hact⟩ := Option.bind_eq_some_iff.1 h
    exact (ih hactions).act hact

/-- A history is possible just when it refers to nothing before it is made. -/
theorem after_isSome_iff (actions : List Action) : (after actions).isSome ↔ Coherent actions := by
  induction actions using List.reverseRecOn with
  | nil => simp [after, Coherent, Happened]
  | append_singleton actions a ih =>
    rw [after_snoc, coherent_snoc_iff, ← ih]
    cases hactions : after actions with
    | none => simp
    | some m =>
      have hm := follows_of_after hactions
      rw [Option.bind_some, act_isSome_iff, hm.environments, hm.cells]
      simp

/-- A binding leaves what the other environments show. -/
theorem Follows.lookup?_of_binding (hm : m.Follows actions) (h : m.act a = some m')
    {binding : Nat × Name × Slot} (hbinding : a.binding? m.cells.size = some binding) {env : Nat}
    {e : Environment} (he : m.environments[env]? = some e) (name : Name) :
    e.lookup? m'.cells name = e.lookup? m.cells name := by
  have hrefill := (effects_of_act h).2
  generalize m'.cells = cells at hrefill
  cases hrefill with
  | made hfilling hmakes =>
    unfold Environment.lookup?
    cases hslot : e.slot? name with
    | none => rfl
    | some slot =>
      cases slot with
      | plain v => rfl
      | cell cell =>
        have hlt : cell < m.cells.size := hm.bound env name cell (by simp [slot?, he, hslot])
        simp [Slot.value, Cells.get_alloc, Nat.ne_of_lt hlt]
  | set hfilling hcell hmakes => cases hfilling.symm.trans (a.filling?_of_binding hbinding hmakes)
  | kept => rfl

end Memory

structure Environment.Follows (e : Environment) (cells : Cells) (actions : List Action)
    (env : Nat) : Prop where
  slot : ∀ name r, e.slot? name = r ↔ Latest (Gave actions env name) r
  lookup : ∀ name r, e.lookup? cells name = r ↔ Shown actions env name r
  get_ok : ∀ name v, e.get cells name = .ok v ↔ Shown actions env name (some v)
  get_error : ∀ name err, e.get cells name = .error err ↔
    Shown actions env name none ∧ err = .unboundVariable name
  contains : ∀ name, e.contains name ↔ ∃ time slot, Gave actions env name time slot
  size : ∃ names : List Name, names.Nodup ∧ e.size = names.length ∧
    ∀ name, name ∈ names ↔ ∃ time slot, Gave actions env name time slot

namespace Memory

variable {m m' : Memory} {actions : List Action} {env : Nat} {e : Environment}

theorem Follows.shown (hm : m.Follows actions) (he : m.environments[env]? = some e)
    (name : Name) : Shown actions env name (e.lookup? m.cells name) := by
  have hslots := hm.slots env name
  have hslot : m.slot? env name = e.slot? name := by simp [slot?, he]
  rw [hslot] at hslots
  unfold Environment.lookup?
  cases hs : e.slot? name with
  | none => exact .unbound (hs ▸ hslots)
  | some slot =>
    cases slot with
    | plain v => exact .plain (hs ▸ hslots)
    | cell cell =>
      have hcell : cell < m.cells.size := hm.bound env name cell (hslot.trans hs)
      exact .cell (hs ▸ hslots) (hm.contents cell hcell)

theorem Follows.environment (hm : m.Follows actions) (he : m.environments[env]? = some e) :
    e.Follows m.cells actions env := by
  have hlatest (name : Name) : Latest (Gave actions env name) (e.slot? name) := by
    simpa [slot?, he] using hm.slots env name
  have hlookup (name : Name) (r : Option Value) :
      e.lookup? m.cells name = r ↔ Shown actions env name r :=
    ⟨fun h => h ▸ hm.shown he name, fun h => (hm.shown he name).unique h⟩
  refine ⟨?_, hlookup, ?_, ?_, ?_, ?_⟩
  · exact fun name r => ⟨fun h => h ▸ hlatest name, slot_eq_of_latest (hlatest name)⟩
  · intro name v
    rw [← hlookup, Environment.get]
    cases e.lookup? m.cells name <;> simp
  · intro name err
    rw [← hlookup, Environment.get]
    cases e.lookup? m.cells name <;> simp [eq_comm]
  · exact fun name => (hlatest name).isSome_iff
  · refine ⟨e.bindings.keys, e.bindings.nodup, (List.length_map _).symm, fun name => ?_⟩
    exact Table.mem_keys_iff.trans (hlatest name).isSome_iff

theorem environments_of_binding {a : Action} {bound : Nat} {name : Name} {slot : Slot}
    (h : m.act a = some m') (hbinding : a.binding? m.cells.size = some (bound, name, slot))
    (henv : env ≠ bound) : m'.environments[env]? = m.environments[env]? := by
  have hchange := (effects_of_act h).1
  generalize m'.environments = es at hchange
  cases hchange with
  | created ha =>
    subst ha
    cases hbinding
  | copied ha he =>
    subst ha
    cases hbinding
  | bound hbinding' he =>
    cases hbinding.symm.trans hbinding'
    exact List.getElem?_set_ne (Ne.symm henv)
  | kept => rfl

theorem lookup?_of_set {cell : CellId} {v : Value} (h : m.act (.set cell v) = some m') :
    m'.environments = m.environments ∧ ∀ (e : Environment) (name : Name),
      (e.Binds name cell → e.lookup? m'.cells name = some v) ∧
      (¬ e.Binds name cell → e.lookup? m'.cells name = e.lookup? m.cells name) := by
  simp only [act] at h
  split at h
  · next hcell =>
    cases h
    refine ⟨rfl, fun e name => ⟨fun hslot => ?_, fun hslot => ?_⟩⟩
    · rw [Environment.Binds] at hslot
      simp [Environment.lookup?, hslot, Slot.value, Cells.get_set _ hcell]
    · exact Environment.lookup?_set_of_not_binds hslot m.cells v
  · cases h

end Memory

/-- Environments and cells follow their history. A history is possible just when it refers to
nothing before it is made. After it, every environment shows for a name what the latest
binding gave that counts for the environment, its own or up to the copy its source's, and
no name has a slot for which there was none; through a slot with a cell it shows what
that cell was given last, by whatever handle. So a binding counts for no other environment
that is there and changes nothing that such a one shows, and setting a cell shows in
just the environments and names that have a slot with that cell. -/
theorem memory_follows_history (actions : List Action) :
    ((Memory.after actions).isSome ↔ Coherent actions) ∧
    (∀ time before a env name slot, Happened actions time before a →
      a.binding? (cellsMade before) = some (env, name, slot) →
      ∀ other < environmentsMade before, other ≠ env → ∀ x s, ¬ Gave actions other x time s) ∧
    ∀ m, Memory.after actions = some m →
      m.environments.length = environmentsMade actions ∧ m.cells.size = cellsMade actions ∧
      (∀ (env : Nat) (e : Environment), m.environments[env]? = some e →
        e.Follows m.cells actions env) ∧
      (∀ cell < m.cells.size, ∀ v, m.cells.get cell = v ↔ Latest (Filled actions cell) (some v)) ∧
      (∀ a m' env name slot, m.act a = some m' → a.binding? m.cells.size = some (env, name, slot) →
        ∀ (other : Nat) (e : Environment), other ≠ env → m.environments[other]? = some e →
          m'.environments[other]? = some e ∧
          ∀ x, e.lookup? m'.cells x = e.lookup? m.cells x) ∧
      ∀ cell v m', m.act (.set cell v) = some m' →
        m'.environments = m.environments ∧ ∀ e ∈ m.environments, ∀ x,
          (e.Binds x cell → e.lookup? m'.cells x = some v) ∧
          (¬ e.Binds x cell → e.lookup? m'.cells x = e.lookup? m.cells x) := by
  refine ⟨Memory.after_isSome_iff actions, ?_, fun m h => ?_⟩
  · intro time before a env name slot ha hbinding other hother hne x s hgave
    exact hne (hgave.env_eq ha hbinding hother)
  · have hm := Memory.follows_of_after h
    refine ⟨hm.environments, hm.cells, fun env e he => hm.environment he, ?_, ?_, ?_⟩
    · intro cell hcell v
      have hlatest := hm.contents cell hcell
      exact ⟨fun h => h ▸ hlatest, fun h => Option.some.inj (contents_eq_of_latest hlatest h)⟩
    · intro a m' env name slot hact hbinding other e hne he
      exact ⟨(Memory.environments_of_binding hact hbinding hne).trans he,
        hm.lookup?_of_binding hact hbinding he⟩
    · intro cell v m' hact
      obtain ⟨henvironments, hlookup⟩ := Memory.lookup?_of_set hact
      exact ⟨henvironments, fun e _ => hlookup e⟩

/-- A variable is copied with its cell, bound anew where it came from, and then set through
the handle that was kept. -/
def sharing : List Action :=
  [.create, .defineCell 0 "x", .set 0 (.text "old"), .copy 0, .define 0 "x" (.text "plain"),
    .set 0 (.text "new")]

def shared : Memory where
  environments :=
    [(Environment.empty.bind "x" (.cell 0)).bindValue "x" (.text "plain"),
      Environment.empty.bind "x" (.cell 0)]
  cells := ⟨#[.text "new"]⟩

/-- The first environment shows what it was bound to last and the copy what the cell was set
to last. One more binding in the copy leaves the first alone, and one more set does not
show there. -/
theorem shared_follows_sharing :
    Memory.after sharing = some shared ∧
    Shown sharing 0 "x" (some (.text "plain")) ∧ Shown sharing 1 "x" (some (.text "new")) ∧
    (∃ m', shared.act (.define 1 "x" .absent) = some m' ∧
      m'.environments[0]? = shared.environments[0]?) ∧
    ∃ m', shared.act (.set 0 .absent) = some m' ∧ ∀ e, shared.environments[0]? = some e →
      e.lookup? m'.cells "x" = some (.text "plain") := by
  have hafter : Memory.after sharing = some shared := rfl
  obtain ⟨-, -, hfollows⟩ := memory_follows_history sharing
  obtain ⟨-, -, henvironment, -, hbinding, hset⟩ := hfollows shared hafter
  refine ⟨hafter, ?_, ?_, ?_, ?_⟩
  · exact ((henvironment 0 _ rfl).lookup "x" _).1 rfl
  · exact ((henvironment 1 _ rfl).lookup "x" _).1 rfl
  · obtain ⟨m', hact⟩ : ∃ m', shared.act (.define 1 "x" .absent) = some m' := ⟨_, rfl⟩
    exact ⟨m', hact, (hbinding _ m' 1 "x" (.plain .absent) hact rfl 0 _ (by decide) rfl).1⟩
  · obtain ⟨m', hact⟩ : ∃ m', shared.act (.set 0 .absent) = some m' := ⟨_, rfl⟩
    refine ⟨m', hact, ?_⟩
    rintro _ ⟨⟩
    have hplain := ((hset 0 .absent m' hact).2 _ List.mem_cons_self "x").2
    exact hplain fun h => by cases h

end Treewalk
