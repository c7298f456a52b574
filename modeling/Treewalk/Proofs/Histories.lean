import Treewalk.State.Environment

/-!
Histories of environments and cells. Environments are made empty or as copies, names are
bound in them, and cells are made and set; a history is a list of such actions. The
bindings that count for an environment are its own and, up to the copy that made it,
those that count for the environment it was copied from. What a history says of a name in
an environment is what the latest of these bindings gave, and of a cell what it was given
last.
-/
namespace Treewalk

/-- An action on environments and cells. Both are numbered in the order they are made, and
all handles to a cell are its number. -/
inductive Action where
  | create
  | copy (source : Nat)
  | define (env : Nat) (name : Name) (v : Value)
  | defineCell (env : Nat) (name : Name)
  | attach (env : Nat) (name : Name) (cell : CellId)
  | allocate (v : Value)
  | set (cell : CellId) (v : Value)

namespace Action

/-- The environment, the name and the slot of a binding; `next` is the number that a new
cell gets. -/
def binding? (next : CellId) : Action → Option (Nat × Name × Slot)
  | define env name v => some (env, name, .plain v)
  | defineCell env name => some (env, name, .cell next)
  | attach env name cell => some (env, name, .cell cell)
  | _ => none

def filling? (next : CellId) : Action → Option (CellId × Value)
  | defineCell .. => some (next, .absent)
  | allocate v => some (next, v)
  | set cell v => some (cell, v)
  | _ => none

def makesEnvironment : Action → Bool
  | create | copy _ => true
  | _ => false

def makesCell : Action → Bool
  | defineCell .. | allocate _ => true
  | _ => false

def Sound (environments cells : Nat) : Action → Prop
  | create | allocate _ => True
  | copy source => source < environments
  | define env .. | defineCell env _ => env < environments
  | attach env _ cell => env < environments ∧ cell < cells
  | set cell _ => cell < cells

theorem ne_copy {a : Action} (h : a.makesEnvironment = false) (source : Nat) :
    a ≠ .copy source := by
  rintro rfl
  cases h

theorem filling?_of_binding {next : CellId} {binding : Nat × Name × Slot} (a : Action)
    (h : a.binding? next = some binding) (hmakes : a.makesCell = false) :
    a.filling? next = none := by
  cases a with
  | define | attach => rfl
  | defineCell => cases hmakes
  | _ => cases h

end Action

/-- At this time, `before` had been done and then `a` was. -/
def Happened (actions : List Action) (time : Nat) (before : List Action) (a : Action) : Prop :=
  actions[time]? = some a ∧ actions.take time = before

def environmentsMade (actions : List Action) : Nat := actions.countP Action.makesEnvironment

def cellsMade (actions : List Action) : Nat := actions.countP Action.makesCell

def Coherent (actions : List Action) : Prop :=
  ∀ time before a, Happened actions time before a →
    a.Sound (environmentsMade before) (cellsMade before)

/-- At this time the name was bound to the slot in the environment, or so for the one that
it is a copy of, before the copy was made. -/
inductive Gave : List Action → Nat → Name → Nat → Slot → Prop
  | own {actions before : List Action} {a : Action} {env time : Nat} {name : Name} {slot : Slot}
      (h : Happened actions time before a)
      (hbinding : a.binding? (cellsMade before) = some (env, name, slot)) :
      Gave actions env name time slot
  | copied {actions before : List Action} {source made time : Nat} {name : Name} {slot : Slot}
      (h : Happened actions made before (.copy source))
      (hgave : Gave before source name time slot) :
      Gave actions (environmentsMade before) name time slot

def Filled (actions : List Action) (cell : CellId) (time : Nat) (v : Value) : Prop :=
  ∃ before a, Happened actions time before a ∧ a.filling? (cellsMade before) = some (cell, v)

/-- What the latest of some events gave, if there was one. -/
inductive Latest {α : Type} (event : Nat → α → Prop) : Option α → Prop
  | never (h : ∀ time a, ¬ event time a) : Latest event none
  | last {time : Nat} {a : α} (h : event time a)
      (hlast : ∀ time' a', event time' a' → time' ≤ time) : Latest event (some a)

inductive Shown (actions : List Action) (env : Nat) (name : Name) : Option Value → Prop
  | unbound (h : Latest (Gave actions env name) none) : Shown actions env name none
  | plain {v : Value} (h : Latest (Gave actions env name) (some (.plain v))) :
      Shown actions env name (some v)
  | cell {cell : CellId} {v : Value} (h : Latest (Gave actions env name) (some (.cell cell)))
      (hv : Latest (Filled actions cell) (some v)) : Shown actions env name (some v)

namespace Latest

variable {α : Type} {event event' : Nat → α → Prop} {r r' : Option α}

theorem congr (h : ∀ time a, event' time a ↔ event time a) (hlatest : Latest event r) :
    Latest event' r := by
  have heq : event' = event := funext fun time => funext fun a => propext (h time a)
  exact heq ▸ hlatest

/-- Where events of one time give the same, there is one latest. -/
theorem unique (hsame : ∀ time a a', event time a → event time a' → a = a')
    (h : Latest event r) (h' : Latest event r') : r = r' := by
  cases h with
  | never hnever =>
    cases h' with
    | never => rfl
    | last h' => exact absurd h' (hnever _ _)
  | @last time a h hlast =>
    cases h' with
    | never hnever => exact absurd h (hnever _ _)
    | @last time' a' h' hlast' =>
      have htime : time = time' := Nat.le_antisymm (hlast' _ _ h) (hlast _ _ h')
      subst htime
      rw [hsame _ _ _ h h']

theorem isSome_iff (h : Latest event r) : r.isSome ↔ ∃ time a, event time a := by
  cases h with
  | never hnever => simpa using hnever
  | last h => simpa using ⟨_, _, h⟩

end Latest

section Events

variable {actions : List Action} {a : Action}

theorem happened_snoc_iff {time : Nat} {before : List Action} {b : Action} :
    Happened (actions ++ [a]) time before b ↔
      Happened actions time before b ∨ time = actions.length ∧ before = actions ∧ b = a := by
  unfold Happened
  rcases Nat.lt_trichotomy time actions.length with hlt | rfl | hgt
  · rw [List.getElem?_append_left hlt, List.take_append_of_le_length (Nat.le_of_lt hlt)]
    simp [Nat.ne_of_lt hlt]
  · simp [eq_comm, and_comm]
  · have hlen : (actions ++ [a]).length ≤ time := by
      rw [List.length_append, List.length_singleton]
      exact hgt
    rw [List.getElem?_eq_none hlen, List.getElem?_eq_none (Nat.le_of_lt hgt)]
    simp [Nat.ne_of_gt hgt]

theorem Happened.time_lt {time : Nat} {before : List Action}
    (h : Happened actions time before a) : time < actions.length :=
  (List.getElem?_eq_some_iff.1 h.1).1

theorem Happened.unique {time : Nat} {before before' : List Action} {a' : Action}
    (h : Happened actions time before a) (h' : Happened actions time before' a') :
    before = before' ∧ a = a' :=
  ⟨h.2.symm.trans h'.2, Option.some.inj (h.1.symm.trans h'.1)⟩

theorem environmentsMade_snoc (actions : List Action) (a : Action) :
    environmentsMade (actions ++ [a]) = environmentsMade actions + a.makesEnvironment.toNat := by
  cases h : a.makesEnvironment <;> simp [environmentsMade, h]

theorem cellsMade_snoc (actions : List Action) (a : Action) :
    cellsMade (actions ++ [a]) = cellsMade actions + a.makesCell.toNat := by
  cases h : a.makesCell <;> simp [cellsMade, h]

theorem coherent_snoc_iff :
    Coherent (actions ++ [a]) ↔
      Coherent actions ∧ a.Sound (environmentsMade actions) (cellsMade actions) := by
  constructor
  · intro h
    exact ⟨fun time before b hb => h time before b (happened_snoc_iff.2 (.inl hb)),
      h _ _ _ (happened_snoc_iff.2 (.inr ⟨rfl, rfl, rfl⟩))⟩
  · rintro ⟨hactions, ha⟩ time before b hb
    rcases happened_snoc_iff.1 hb with hb | ⟨-, rfl, rfl⟩
    · exact hactions time before b hb
    · exact ha

theorem gave_snoc_iff {env time : Nat} {name : Name} {slot : Slot} :
    Gave (actions ++ [a]) env name time slot ↔
      Gave actions env name time slot ∨
      time = actions.length ∧ a.binding? (cellsMade actions) = some (env, name, slot) ∨
      env = environmentsMade actions ∧ ∃ source, a = .copy source ∧
        Gave actions source name time slot := by
  constructor
  · intro h
    cases h with
    | own h hbinding =>
      rcases happened_snoc_iff.1 h with h | ⟨rfl, rfl, rfl⟩
      · exact .inl (.own h hbinding)
      · exact .inr (.inl ⟨rfl, hbinding⟩)
    | copied h hgave =>
      rcases happened_snoc_iff.1 h with h | ⟨rfl, rfl, rfl⟩
      · exact .inl (.copied h hgave)
      · exact .inr (.inr ⟨rfl, _, rfl, hgave⟩)
  · rintro (h | ⟨rfl, hbinding⟩ | ⟨rfl, source, rfl, hgave⟩)
    · cases h with
      | own h hbinding => exact .own (happened_snoc_iff.2 (.inl h)) hbinding
      | copied h hgave => exact .copied (happened_snoc_iff.2 (.inl h)) hgave
    · exact .own (happened_snoc_iff.2 (.inr ⟨rfl, rfl, rfl⟩)) hbinding
    · exact .copied (happened_snoc_iff.2 (.inr ⟨rfl, rfl, rfl⟩)) hgave

theorem filled_snoc_iff {cell time : Nat} {v : Value} :
    Filled (actions ++ [a]) cell time v ↔
      Filled actions cell time v ∨
      time = actions.length ∧ a.filling? (cellsMade actions) = some (cell, v) := by
  constructor
  · rintro ⟨before, b, h, hfilling⟩
    rcases happened_snoc_iff.1 h with h | ⟨rfl, rfl, rfl⟩
    · exact .inl ⟨before, b, h, hfilling⟩
    · exact .inr ⟨rfl, hfilling⟩
  · rintro (⟨before, b, h, hfilling⟩ | ⟨rfl, hfilling⟩)
    · exact ⟨before, b, happened_snoc_iff.2 (.inl h), hfilling⟩
    · exact ⟨actions, a, happened_snoc_iff.2 (.inr ⟨rfl, rfl, rfl⟩), hfilling⟩

theorem Filled.time_lt {cell time : Nat} {v : Value} (h : Filled actions cell time v) :
    time < actions.length := by
  obtain ⟨before, a, h, -⟩ := h
  exact h.time_lt

theorem Filled.unique {cell time : Nat} {v v' : Value} (h : Filled actions cell time v)
    (h' : Filled actions cell time v') : v = v' := by
  obtain ⟨before, a, ha, hfilling⟩ := h
  obtain ⟨before', a', ha', hfilling'⟩ := h'
  obtain ⟨rfl, rfl⟩ := ha.unique ha'
  cases hfilling.symm.trans hfilling'
  rfl

/-- Whether it counts for a copy or not, a binding is an action of the history. -/
theorem Gave.exists_binding {env time : Nat} {name : Name} {slot : Slot}
    (h : Gave actions env name time slot) :
    ∃ env' before a, Happened actions time before a ∧
      a.binding? (cellsMade before) = some (env', name, slot) := by
  induction h with
  | @own actions before a env time name slot h hbinding => exact ⟨env, before, a, h, hbinding⟩
  | @copied actions before source made time name slot h hgave ih =>
    obtain ⟨env', earlier, a, ⟨ha, rfl⟩, hbinding⟩ := ih
    obtain ⟨-, rfl⟩ := h
    have hlength : time < (actions.take made).length := (List.getElem?_eq_some_iff.1 ha).1
    have hlt : time < made := Nat.lt_of_lt_of_le hlength (List.length_take_le ..)
    refine ⟨env', _, a, ⟨?_, rfl⟩, ?_⟩
    · rwa [List.getElem?_take_of_lt hlt] at ha
    · rwa [List.take_take, Nat.min_eq_left (Nat.le_of_lt hlt)] at hbinding

theorem Gave.time_lt {env time : Nat} {name : Name} {slot : Slot}
    (h : Gave actions env name time slot) : time < actions.length := by
  obtain ⟨env', before, a, ha, -⟩ := h.exists_binding
  exact ha.time_lt

theorem Gave.unique {env time : Nat} {name : Name} {slot slot' : Slot}
    (h : Gave actions env name time slot) (h' : Gave actions env name time slot') :
    slot = slot' := by
  obtain ⟨_, before, a, ha, hbinding⟩ := h.exists_binding
  obtain ⟨_, before', a', ha', hbinding'⟩ := h'.exists_binding
  obtain ⟨rfl, rfl⟩ := ha.unique ha'
  cases hbinding.symm.trans hbinding'
  rfl

theorem time_le_of_lt {time : Nat} (h : time < (actions ++ [a]).length) :
    time ≤ actions.length := by
  rw [List.length_append] at h
  exact Nat.le_of_lt_succ h

theorem slot_eq_of_latest {env : Nat} {name : Name} {r r' : Option Slot}
    (h : Latest (Gave actions env name) r) (h' : Latest (Gave actions env name) r') : r = r' :=
  Latest.unique (fun _ _ _ hslot => hslot.unique) h h'

theorem contents_eq_of_latest {cell : CellId} {r r' : Option Value}
    (h : Latest (Filled actions cell) r) (h' : Latest (Filled actions cell) r') : r = r' :=
  Latest.unique (fun _ _ _ hv => hv.unique) h h'

end Events

theorem Shown.unique {actions : List Action} {env : Nat} {name : Name} {r r' : Option Value}
    (h : Shown actions env name r) (h' : Shown actions env name r') : r = r' := by
  cases h with
  | unbound h =>
    cases h' with
    | unbound => rfl
    | plain h' | cell h' => cases slot_eq_of_latest h h'
  | plain h =>
    cases h' with
    | plain h' =>
      cases slot_eq_of_latest h h'
      rfl
    | unbound h' | cell h' => cases slot_eq_of_latest h h'
  | cell h hv =>
    cases h' with
    | cell h' hv' =>
      cases slot_eq_of_latest h h'
      exact contents_eq_of_latest hv hv'
    | unbound h' | plain h' => cases slot_eq_of_latest h h'

theorem environmentsMade_take_le (actions : List Action) {time time' : Nat} (h : time ≤ time') :
    environmentsMade (actions.take time) ≤ environmentsMade (actions.take time') :=
  (List.take_sublist_take_left h).countP_le

/-- A binding in one environment counts for no other that is there. -/
theorem Gave.env_eq {actions before : List Action} {a : Action} {env bound time : Nat}
    {name x : Name} {slot s : Slot} (h : Gave actions env x time s)
    (ha : Happened actions time before a)
    (hbinding : a.binding? (cellsMade before) = some (bound, name, slot))
    (henv : env < environmentsMade before) : env = bound := by
  cases h with
  | own h hown =>
    obtain ⟨rfl, rfl⟩ := h.unique ha
    cases hown.symm.trans hbinding
    rfl
  | @copied _ _ source made _ _ _ h hgave =>
    obtain ⟨-, rfl⟩ := h
    obtain ⟨-, rfl⟩ := ha
    have hlt : time < made := Nat.lt_of_lt_of_le hgave.time_lt (List.length_take_le ..)
    exact absurd henv (Nat.not_lt.2 (environmentsMade_take_le actions (Nat.le_of_lt hlt)))

end Treewalk
