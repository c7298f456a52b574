import Mathlib.Logic.Relation
import Treewalk.Proofs.AlikePrograms
import Treewalk.Proofs.Labels
import Treewalk.Proofs.Operations
import Treewalk.Proofs.Turns
import Treewalk.Proofs.WriteLocality

/-!
Labels are found where they are declared. A block is made just when its children
declare no label twice, and then a label has the position of the child that
declares it and a label that no child declares has none. Compilation makes all its blocks so.
Running code only hands functions on, so this stays true of every block in every function
that an interpreter comes by, whatever a host asks of it. Main statements: the index
of a block, the blocks in compiled code, and the blocks in all states of an interpreter.
-/
namespace Treewalk

variable {η : Type}

theorem Code.label?_eq_some_iff {n : Code} {label : Name} :
    n.label? = some label ↔ n = .label label := by
  cases n <;> simp [Code.label?]

namespace Block

def Distinct (children : List Code) : Prop :=
  ∀ (i j : Nat) (label : Name), children[i]? = some (.label label) →
    children[j]? = some (.label label) → i = j

/-- The child at position `i` is the first that declares a label over again. -/
structure RepeatsAt (children : List Code) (i : Nat) (label : Name) : Prop where
  declared : children[i]? = some (.label label)
  before : ∃ j < i, children[j]? = some (.label label)
  first : ∀ k < i, ∀ other, children[k]? = some (.label other) →
    ∀ j < k, children[j]? ≠ some (.label other)

/-- The labels are those that children declare, each once and at its own position. -/
structure Exact (children : List Code) : Prop where
  distinct : Distinct children
  position?_iff : ∀ label i, position? children label = some i ↔
    children[i]? = some (.label label)

theorem distinct_iff {children : List Code} : Distinct children ↔ (labels children).Nodup := by
  rw [labels, List.Nodup, List.pairwise_filterMap, List.pairwise_iff_getElem]
  constructor
  · rintro h i j hi hj hlt label hlabel _ hlabel' rfl
    have hchild : children[i]? = some (.label label) :=
      List.getElem?_eq_some_iff.2 ⟨hi, Code.label?_eq_some_iff.1 hlabel⟩
    have hchild' : children[j]? = some (.label label) :=
      List.getElem?_eq_some_iff.2 ⟨hj, Code.label?_eq_some_iff.1 hlabel'⟩
    have heq := h i j label hchild hchild'
    omega
  · intro h i j label hchild hchild'
    obtain ⟨hi, hlabel⟩ := List.getElem?_eq_some_iff.1 hchild
    obtain ⟨hj, hlabel'⟩ := List.getElem?_eq_some_iff.1 hchild'
    rw [← Code.label?_eq_some_iff] at hlabel hlabel'
    rcases Nat.lt_trichotomy i j with hlt | heq | hlt
    · exact absurd rfl (h i j hi hj hlt label hlabel label hlabel')
    · exact heq
    · exact absurd rfl (h j i hj hi hlt label hlabel' label hlabel)

theorem exact_of_distinct {children : List Code} (h : Distinct children) : Exact children :=
  ⟨h, fun _ _ => position?_eq_some_iff (distinct_iff.1 h)⟩

theorem make_eq_ok_iff_distinct {children : List Code} {code : Code} :
    make children = .ok code ↔ Distinct children ∧ code = .block children := by
  rw [make_eq_ok_iff, distinct_iff]

/-- The position at which a label is repeated first. -/
theorem exists_repeatsAt {children : List Code} {label : Name}
    (h : RepeatsFirst (labels children) label) : ∃ i, RepeatsAt children i label := by
  obtain ⟨before, after, hlabels, hnodup, hmem⟩ := h
  obtain ⟨front, rest, rfl, hfront, hrest⟩ := List.filterMap_eq_append_iff.1 hlabels
  obtain ⟨gap, child, tail, rfl, hgap, hchild, -⟩ := List.filterMap_eq_cons_iff.1 hrest
  obtain rfl := Code.label?_eq_some_iff.1 hchild
  -- Up to the repetition the children declare the names in `before`, each once.
  have hearlier : labels (front ++ gap) = before := by
    rw [labels, List.filterMap_append, hfront, List.filterMap_eq_nil_iff.2 hgap, List.append_nil]
  have hsame : ∀ k < (front ++ gap).length,
      (front ++ (gap ++ .label label :: tail))[k]? = (front ++ gap)[k]? := by
    intro k hk
    rw [← List.append_assoc, List.getElem?_append_left hk]
  refine ⟨(front ++ gap).length, ?_, ?_, ?_⟩
  · rw [← List.append_assoc]
    simp
  · rw [← hearlier] at hmem
    obtain ⟨first, second, hsplit⟩ := exists_split_of_mem_labels hmem
    have hlength : first.length < (front ++ gap).length := by
      rw [hsplit]
      simp
    refine ⟨first.length, hlength, ?_⟩
    rw [hsame _ hlength, hsplit]
    simp
  · intro k hk other hother j hj hother'
    have hdistinct : Distinct (front ++ gap) := distinct_iff.2 (hearlier ▸ hnodup)
    rw [hsame k hk] at hother
    rw [hsame j (by omega)] at hother'
    have heq := hdistinct j k other hother' hother
    omega

theorem RepeatsAt.unique {children : List Code} {i i' : Nat} {label label' : Name}
    (h : RepeatsAt children i label) (h' : RepeatsAt children i' label') : label = label' := by
  obtain ⟨j, hj, hbefore⟩ := h.before
  obtain ⟨j', hj', hbefore'⟩ := h'.before
  rcases Nat.lt_trichotomy i i' with hlt | heq | hlt
  · exact absurd hbefore (h'.first i hlt label h.declared j hj)
  · have hdeclared := h'.declared
    rw [← heq, h.declared] at hdeclared
    cases hdeclared
    rfl
  · exact absurd hbefore' (h.first i' hlt label' h'.declared j' hj')

theorem make_eq_error_iff {children : List Code} {e : Error} :
    make children = .error e ↔
      ∃ i label, RepeatsAt children i label ∧ e = .malformed (.duplicateLabel label) := by
  rw [make]
  rcases repeatedLabel?_cases children with ⟨hnone, hnodup⟩ | ⟨label, hsome, hfirst⟩
  · rw [hnone]
    refine ⟨fun h => (by cases h), ?_⟩
    rintro ⟨i, label, hrepeats, -⟩
    obtain ⟨j, hj, hbefore⟩ := hrepeats.before
    have heq := distinct_iff.2 hnodup j i label hbefore hrepeats.declared
    omega
  · rw [hsome]
    obtain ⟨i, hrepeats⟩ := exists_repeatsAt hfirst
    constructor
    · intro h
      cases h
      exact ⟨i, label, hrepeats, rfl⟩
    · rintro ⟨i', label', hrepeats', rfl⟩
      rw [hrepeats.unique hrepeats']

end Block

namespace Code

/-- The code `m` is `n`, or stands anywhere inside it, also in the functions that are
defined or held there. -/
def Anywhere (m n : Code) : Prop := Relation.ReflTransGen Inside m n

def Indexed (n : Code) : Prop := ∀ children, n = .block children → Block.Exact children

def Built (n : Code) : Prop := ∀ children, n = .block children → Block.make children = .ok n

theorem Built.indexed {n : Code} (h : n.Built) : n.Indexed := by
  rintro children rfl
  exact Block.exact_of_distinct (Block.make_eq_ok_iff_distinct.1 (h children rfl)).1

theorem throughout_of_anywhere {fit : Code → Prop} {n : Code}
    (h : ∀ m, m.Anywhere n → fit m) : n.Throughout fit :=
  .all (h n .refl) fun _ hp => throughout_of_anywhere fun m hm => h m (hm.tail hp)
termination_by sizeOf n
decreasing_by exact hp.sizeOf_lt

theorem Throughout.anywhere {fit : Code → Prop} {m n : Code} (h : n.Throughout fit)
    (hm : m.Anywhere n) : fit m := by
  induction hm with
  | refl => exact h.self
  | tail hm hinside ih => exact ih (h.inside hinside)

end Code

namespace Value

def Indexed (v : Value) : Prop := (Code.const v).Throughout Code.Indexed

def Built (v : Value) : Prop := (Code.const v).Throughout Code.Built

theorem indexed_of_not_isFunction {v : Value} (h : ¬ v.IsFunction) : v.Indexed :=
  throughout_const (fun _ heq => by cases heq) h

/-- Each block in the value was made of its children, or stands in one of those `found`. -/
def DrawsOn (found : Value → Prop) (v : Value) : Prop :=
  (Code.const v).Throughout fun m => m.Built ∨ ∃ u, found u ∧ m.Anywhere (.const u)

theorem drawsOn_self {found : Value → Prop} {v : Value} (h : found v) : v.DrawsOn found :=
  Code.throughout_of_anywhere fun _ hm => .inr ⟨v, h, hm⟩

theorem DrawsOn.indexed {found : Value → Prop} {v : Value} (h : v.DrawsOn found)
    (hfound : ∀ u, found u → u.Indexed) : v.Indexed := by
  refine h.imp ?_
  rintro m (hbuilt | ⟨u, hu, hm⟩)
  · exact hbuilt.indexed
  · exact (hfound u hu).anywhere hm

/-- The function that a definition installs is no worse than the definition. -/
theorem indexed_of_definition {n : Code} (h : n.Throughout Code.Indexed) (id : Nat)
    {name : Name} {params : List Name} {body : Code} (hn : n = .definition name params body) :
    (Value.function id name params body).Indexed := by
  subst hn
  exact Code.throughout_function (fun _ heq => by cases heq) (h.inside (.defined name params body))

end Value

section Compiling

variable {scope : Scope} {tree : Tree} {n : Code}

theorem indexed_of_compile (h : compile scope tree = .ok n) : n.Indexed := by
  rintro children rfl
  cases compiled_of_compile h with
  | block hform hcodes hlabels =>
    exact Block.exact_of_distinct (Block.distinct_iff.2 (Block.repeatedLabel?_eq_none_iff.1 hlabels))

/-- A block in compiled code is one that was made for it, or it stands in a function that
a call by name holds. -/
theorem indexed_or_held_of_compile (h : compile scope tree = .ok n) {m : Code}
    (hm : m.Anywhere n) : m.Indexed ∨ ∃ name, m.Anywhere (.const (scope.target name)) := by
  induction tree using Tree.induction generalizing n with
  | h tree ih =>
    rcases hm.cases_tail with rfl | ⟨p, hmp, hpn⟩
    · exact .inl (indexed_of_compile h)
    · rcases inside_of_compile h hpn with ⟨child, hchild, hcode⟩ | ⟨name, rfl⟩
      · exact ih child hchild hcode hmp
      · exact .inr ⟨name, hmp⟩

theorem throughout_indexed_of_compile (htarget : ∀ name, (scope.target name).Indexed)
    (h : compile scope tree = .ok n) : n.Throughout Code.Indexed := by
  refine Code.throughout_of_anywhere fun m hm => ?_
  rcases indexed_or_held_of_compile h hm with hindexed | ⟨name, hheld⟩
  · exact hindexed
  · exact (htarget name).anywhere hheld

end Compiling

namespace Host

/-- What a native can get at: its arguments, what the host has from earlier calls, and
the contents of cells. -/
def Meets (held : Value → Prop) (args : List Value) (get : CellId → Value) (u : Value) : Prop :=
  u ∈ args ∨ held u ∨ ∃ cell, get cell = u

/-- The host returns a function, or sets a cell to one, only if it has met the blocks
in it, or has made them of their children. -/
structure PassesOn (host : Host η) (held : η → Value → Prop) : Prop where
  returned {f : Native} {args : List Value} {s : η} {get : CellId → Value} {v : Value} :
    (host.call f args s get).answer = .ok v → v.IsFunction → v.DrawsOn (Meets (held s) args get)
  written {f : Native} {args : List Value} {s : η} {get : CellId → Value} {cell : CellId}
    {v : Value} :
    (cell, v) ∈ (host.call f args s get).writes → v.IsFunction →
      v.DrawsOn (Meets (held s) args get)
  kept {f : Native} {args : List Value} {s : η} {get : CellId → Value} {v : Value} :
    held (host.call f args s get).state v → v.DrawsOn (Meets (held s) args get)

variable {host : Host η} {held : η → Value → Prop}

theorem HandsBack.passesOn (hback : host.HandsBack held) : host.PassesOn held := by
  have hmet : ∀ {args : List Value} {s : η} {get : CellId → Value} {v : Value},
      v ∈ args ∨ held s v → v.DrawsOn (Meets (held s) args get) := by
    rintro args s get v (hmem | hheld)
    · exact Value.drawsOn_self (.inl hmem)
    · exact Value.drawsOn_self (.inr (.inl hheld))
  exact ⟨fun h hv => hmet (hback.returned h hv), fun h hv => hmet (hback.written h hv),
    fun h => hmet (hback.kept h)⟩

/-- A native leaves exact labels throughout, and gives them, if it gets at no others. -/
theorem PassesOn.indexed (hpasses : host.PassesOn held) {f : Native} {args : List Value}
    {w w' : World η} {r : Except Error Value} (hargs : ∀ a ∈ args, a.Indexed)
    (hw : (w.cells.Carry Value.Indexed fun _ => True) ∧ ∀ v, held w.host v → v.Indexed)
    (h : host.apply f args w = (r, w')) :
    ((w'.cells.Carry Value.Indexed fun _ => True) ∧ ∀ v, held w'.host v → v.Indexed) ∧
      ∀ v, r = .ok v → v.Indexed := by
  have hmet : ∀ u, Meets (held w.host) args w.cells.get u → u.Indexed := by
    rintro u (hmem | hheld | ⟨cell, rfl⟩)
    · exact hargs u hmem
    · exact hw.2 u hheld
    · exact hw.1.contents cell trivial
  exact Host.apply_carries (fun _ => Value.indexed_of_not_isFunction) hw
    (fun v hv hfunction => (hpasses.returned hv hfunction).indexed hmet)
    (fun cell v hv hfunction => (hpasses.written hv hfunction).indexed hmet)
    (fun v hv => (hpasses.kept hv).indexed hmet) h

end Host

def indexing {host : Host η} {held : η → Value → Prop} (hpasses : host.PassesOn held) :
    Invariant host where
  env e := e.Carries Value.Indexed fun _ => True
  world w := (w.cells.Carry Value.Indexed fun _ => True) ∧ ∀ v, held w.host v → v.Indexed
  value := Value.Indexed
  cell _ := True
  code _ n := n.Throughout Code.Indexed
  absent := Value.indexed_of_not_isFunction fun h => h
  part h hpart := h.part hpart
  const h := h
  body h := h.inside (.held _ _ _ _)
  read he hw h := he.lookup? hw.1 h
  bind name he hv := he.bindValue name hv
  define := by
    intro labels name c _ he hw
    have habsent : Value.absent.Indexed := Value.indexed_of_not_isFunction fun h => h
    have hdefine := Config.define_carries habsent he hw.1 name
    exact ⟨hdefine.1, hdefine.2, hw.2⟩
  target _ _ _ := trivial
  store hw _ hv := ⟨hw.1.set _ hv, hw.2⟩
  native _ hargs hw happly := by
    obtain ⟨hworld, hvalue⟩ := hpasses.indexed hargs hw happly
    exact ⟨hworld, hvalue, fun _ _ => trivial⟩

def Config.Indexed (held : η → Value → Prop) (c : Config η) : Prop :=
  ∀ v, c.Finds (held c.world.host) v → v.Indexed

def Event.Indexed (held : η → Value → Prop) : Event (Config η) → Prop
  | .node _ n c => n.Throughout Code.Indexed ∧ c.Indexed held
  | .call _ f args c => f.Indexed ∧ (∀ a ∈ args, a.Indexed) ∧ c.Indexed held

def Answer.Indexed : Answer → Prop
  | .nothing => True
  | .value v => v.Indexed
  | .compiled form => form.code.Throughout Code.Indexed

def Outcome.Indexed (held : η → Value → Prop) (o : Outcome (Interpreter η) Answer) : Prop :=
  o.Meets Answer.Indexed (fun _ => True) fun it => it.config.Indexed held

/-- The code that comes with an operation; trees are compiled first, and are not among it. -/
inductive Operation.Brings : Operation → Code → Prop
  | form (form : Form) : Brings (.form form) form.code
  | arg (name : Name) {args : List Value} {a : Value} (h : a ∈ args) :
      Brings (.call name args) (.const a)
  | define (name : Name) (v : Value) : Brings (.define name v) (.const v)
  | defineCell (name : Name) (v : Value) : Brings (.defineCell name v) (.const v)

/-- The code that an operation leaves behind in the state, or that is in its answer. -/
inductive Record.Shows (held : η → Value → Prop) (r : Record η) (n : Code) : Prop
  | left {it : Interpreter η} {v : Value} (h : r.outcome.state? = some it)
      (hv : it.config.Finds (held it.world.host) v) (hn : n.Anywhere (.const v))
  | value {it : Interpreter η} {v : Value} (h : r.outcome = .done (.value v) it)
      (hn : n.Anywhere (.const v))
  | compiled {it : Interpreter η} {form : Form} (h : r.outcome = .done (.compiled form) it)
      (hn : n.Anywhere form.code)

def Operation.DrawsOn (held : η → Value → Prop) (past : List (Record η))
    (operation : Operation) : Prop :=
  ∀ n, operation.Brings n → n.Throughout fun m => m.Built ∨ ∃ r ∈ past, r.Shows held m

/-- The interpreters that come of `start` by operations that each draw on those before,
with what was performed, the latest first. -/
inductive Interpreter.Comes (host : Host η) (held : η → Value → Prop) (start : Interpreter η) :
    List (Record η) → Interpreter η → Prop
  | start : Comes host held start [] start
  | perform {past : List (Record η)} {it it' : Interpreter η} {operation : Operation}
      (fuel : Nat) (h : Comes host held start past it) (hdraws : operation.DrawsOn held past)
      (hends : (it.perform host fuel operation).state? = some it') :
      Comes host held start (⟨it, operation, it.perform host fuel operation⟩ :: past) it'

section Operating

variable {host : Host η} {held : η → Value → Prop} {hpasses : host.PassesOn held}
  {start it : Interpreter η} {operation : Operation} {past : List (Record η)}

theorem indexing_holds_iff {c : Config η} : (indexing hpasses).Holds c ↔ c.Indexed held := by
  constructor
  · rintro ⟨henv, hcells, hheld⟩ v hfound
    cases hfound with
    | given h hv => exact Value.throughout_of_reaches (hheld _ h) hv
    | plain h hv => exact Value.throughout_of_reaches (henv.plain _ _ h) hv
    | contents cell hv => exact Value.throughout_of_reaches (hcells.contents cell trivial) hv
  · intro h
    refine ⟨⟨?_, fun _ _ _ => trivial⟩, ⟨?_, fun _ _ => trivial⟩, ?_⟩
    · exact fun name v hslot => h v (.plain hslot (.self v))
    · exact fun cell _ => h _ (.contents cell (.self _))
    · exact fun v hv => h v (.given hv (.self v))

theorem indexing_accepts (hpasses : host.PassesOn held) (tree : Tree) :
    (indexing hpasses).Accepts tree := by
  intro it code hit hcompile
  have hcode := throughout_indexed_of_compile (Invariant.target_value hit) hcompile
  exact ⟨hcode, fun id _ _ _ hn => Value.indexed_of_definition hcode id hn⟩

theorem event_indexed {event : Event (Config η)} (h : (indexing hpasses).At event) :
    event.Indexed held := by
  cases event with
  | node fuel n c =>
    obtain ⟨⟨labels, hn⟩, hc⟩ := h
    exact ⟨hn, indexing_holds_iff.1 hc⟩
  | call fuel f args c =>
    obtain ⟨hf, hargs, hc⟩ := h
    exact ⟨hf, hargs, indexing_holds_iff.1 hc⟩

/-- An operation gives and leaves exact labels, if it brings no others. -/
theorem perform_indexed (hpasses : host.PassesOn held) (hit : it.config.Indexed held)
    (hbrings : ∀ n, operation.Brings n → n.Throughout Code.Indexed) (fuel : Nat) :
    (it.perform host fuel operation).Indexed held := by
  let I := indexing hpasses
  have hgoverns : ∀ it : Interpreter η, I.Governs it ↔ it.config.Indexed held :=
    fun _ => indexing_holds_iff
  rw [← hgoverns] at hit
  simp only [Outcome.Indexed, ← hgoverns]
  cases operation with
  | program root =>
    have hforms : ∀ tree ∈ root.children, I.Accepts tree :=
      fun tree _ => indexing_accepts hpasses tree
    exact (Invariant.runForms_meets I.covers_all fuel hforms 0 I.absent hit).map fun _ hv => hv
  | compile tree =>
    simp only [Interpreter.perform, Interpreter.compile]
    cases hcompile : compile it.scope tree with
    | error e => exact ⟨trivial, hit⟩
    | ok code => exact ⟨(indexing_accepts hpasses tree hit hcompile).1, hit⟩
  | form form =>
    have hcode := hbrings _ (.form form)
    have hdefinition : ∀ name params body, form.code = .definition name params body →
        I.value (.function form.id name params body) :=
      fun _ _ _ hn => Value.indexed_of_definition hcode form.id hn
    refine (Invariant.runForm_meets I.covers_all fuel hcode hdefinition hit).map ?_
    intro r hr
    cases r with
    | none => trivial
    | some v => exact hr v rfl
  | call name args =>
    have hargs : ∀ a ∈ args, I.value a := fun a ha => hbrings _ (.arg name ha)
    exact (Invariant.call_meets I.covers_all fuel name trivial hargs hit).map fun _ hv => hv
  | register f =>
    have hnative : I.value (.native f) := Value.indexed_of_not_isFunction fun h => h
    exact ⟨trivial, I.bind f.name hit.1 hnative, hit.2⟩
  | define name v => exact ⟨trivial, I.bind name hit.1 (hbrings _ (.define name v)), hit.2⟩
  | defineCell name v =>
    have hcells := hit.2.1.alloc (hbrings _ (.defineCell name v))
    refine ⟨trivial, hit.1.bind name ?_ fun _ _ => trivial, hcells, hit.2.2⟩
    intro u hu
    cases hu
  | clearOutput => exact ⟨trivial, hit⟩

/-- So do all points that the evaluator comes by in it. -/
theorem points_indexed (hpasses : host.PassesOn held) (hit : it.config.Indexed held)
    (hbrings : ∀ n, operation.Brings n → n.Throughout Code.Indexed) (fuel : Nat) :
    ∀ event ∈ it.points host (copying host) id fuel operation, event.Indexed held := by
  let I := indexing hpasses
  have hgoverns : I.Governs it := indexing_holds_iff.2 hit
  suffices hat : ∀ event ∈ it.points host (copying host) id fuel operation, I.At event from
    fun event hevent => event_indexed (hat event hevent)
  cases operation with
  | program root =>
    exact Invariant.at_formPoints fuel (fun tree _ => indexing_accepts hpasses tree) hgoverns
  | form form =>
    have hcode : I.code [] form.code := hbrings _ (.form form)
    simp only [Interpreter.points, id]
    split
    · simp
    · exact I.at_trace fuel hcode hgoverns
  | call name args =>
    exact Invariant.at_callTrace fuel name (fun a ha => hbrings _ (.arg name ha)) hgoverns
  | _ => simp [Interpreter.points]

/-- What was seen in records with exact labels has exact labels. -/
theorem Record.Shows.indexed {r : Record η} {n : Code} (h : r.Shows held n)
    (hr : r.outcome.Indexed held) : n.Indexed := by
  cases h with
  | left h hv hn => exact (Outcome.Meets.of_state? hr h _ hv).anywhere hn
  | value h hn =>
    rw [h] at hr
    exact Code.Throughout.anywhere hr.1 hn
  | compiled h hn =>
    rw [h] at hr
    exact Code.Throughout.anywhere hr.1 hn

theorem Operation.DrawsOn.indexed (h : operation.DrawsOn held past)
    (hpast : ∀ r ∈ past, r.outcome.Indexed held) {n : Code} (hn : operation.Brings n) :
    n.Throughout Code.Indexed := by
  refine (h n hn).imp ?_
  rintro m (hbuilt | ⟨r, hr, hshows⟩)
  · exact hbuilt.indexed
  · exact hshows.indexed (hpast r hr)

/-- All that comes of an interpreter without user functions has exact labels, and so has
all that it has answered. -/
theorem Interpreter.Comes.indexed (hpasses : host.PassesOn held)
    (hstart : ∀ v, start.config.Finds (held start.world.host) v → ¬ v.IsFunction)
    (h : start.Comes host held past it) :
    it.config.Indexed held ∧ ∀ r ∈ past, r.outcome.Indexed held := by
  induction h with
  | start => exact ⟨fun v hv => Value.indexed_of_not_isFunction (hstart v hv), by simp⟩
  | perform fuel h hdraws hends ih =>
    -- What was seen so far is exact, so the operation brings nothing that is not.
    obtain ⟨hit, hpast⟩ := ih
    have hend := perform_indexed hpasses hit (fun _ hn => hdraws.indexed hpast hn) fuel
    exact ⟨Outcome.Meets.of_state? hend hends, List.forall_mem_cons.2 ⟨hend, hpast⟩⟩

end Operating

/-- The label index is exact. A block is made of children just when no two declare one
label, and its children are then what they were; a label has then the position of the child
that declares it, and none if there is no such child. If two do, the error names
the label of the first child whose label came before. Blocks anywhere in compiled code are
as exact, and so are those of the functions it was compiled against if these were made so.
And all blocks are in an interpreter that starts without user functions, on a host that
has none with other blocks, whatever it is asked: in every function found in its states, in
the code and the values at all points of its runs, and in its answers. -/
theorem label_index_exact :
    (∀ children : List Code,
      (∀ code, Block.make children = .ok code ↔
        Block.Distinct children ∧ code = .block children) ∧
      (Block.Distinct children → ∀ label i, Block.position? children label = some i ↔
        children[i]? = some (.label label)) ∧
      ∀ e, Block.make children = .error e ↔
        ∃ i label, Block.RepeatsAt children i label ∧
          e = ⟨.malformedTree (.duplicateLabel label), #[]⟩) ∧
    (∀ (scope : Scope) (tree : Tree) (code : Code), compile scope tree = .ok code →
      (∀ m : Code, m.Anywhere code →
        m.Indexed ∨ ∃ name, m.Anywhere (.const (scope.target name))) ∧
      ((∀ name, (scope.target name).Built) → code.Throughout Code.Indexed)) ∧
    ∀ (host : Host η) (held : η → Value → Prop), host.PassesOn held →
      ∀ start : Interpreter η,
        (∀ v, start.config.Finds (held start.world.host) v → ¬ v.IsFunction) →
        ∀ past it, start.Comes host held past it →
          it.config.Indexed held ∧
          ∀ fuel operation, Operation.DrawsOn held past operation →
            (∀ event ∈ it.points host (copying host) id fuel operation, event.Indexed held) ∧
            (it.perform host fuel operation).Indexed held := by
  refine ⟨?_, ?_, ?_⟩
  · intro children
    exact ⟨fun _ => Block.make_eq_ok_iff_distinct,
      fun hdistinct => (Block.exact_of_distinct hdistinct).position?_iff,
      fun _ => Block.make_eq_error_iff⟩
  · intro scope tree code hcompile
    refine ⟨fun m hm => indexed_or_held_of_compile hcompile hm, ?_⟩
    intro htarget
    refine throughout_indexed_of_compile (fun name => ?_) hcompile
    exact (htarget name).imp fun _ h => h.indexed
  · intro host held hpasses start hstart past it hcomes
    obtain ⟨hit, hpast⟩ := hcomes.indexed hpasses hstart
    refine ⟨hit, ?_⟩
    intro fuel operation hdraws
    have hbrings := fun n (hn : operation.Brings n) => hdraws.indexed hpast hn
    exact ⟨points_indexed hpasses hit hbrings fuel, perform_indexed hpasses hit hbrings fuel⟩

/-- No function is found in a new interpreter. -/
theorem new_not_isFunction {v : Value}
    (h : (Interpreter.new {} ()).config.Finds (fun _ => False) v) : ¬ v.IsFunction := by
  cases h with
  | given h => exact absurd h fun h => h
  | @plain name u h hv =>
    have hslot : (Interpreter.new {} ()).globals.slot? name = some (.plain u) := h
    have hlookup : (Interpreter.new {} ()).lookup? name = some u := by
      simp [Interpreter.lookup?, Environment.lookup?, hslot, Slot.value]
    obtain ⟨f, rfl⟩ := Interpreter.lookup?_new hlookup
    exact hv.not_isFunction fun h => h
  | contents cell hv =>
    have hempty : (Interpreter.new {} ()).config.world.cells.get cell = .absent :=
      Cells.get_of_size_le (Nat.zero_le cell)
    rw [hempty] at hv
    exact hv.not_isFunction fun h => h

def wandering : Tree where
  tag := "program"
  children := [
    { tag := "function", attributes := .ofList [("name", "wander")], children := [
      { tag := "begin", children := [
        { tag := "begin", children := [
          { tag := "label", attributes := .ofList [("name", "in")] }] },
        { tag := "label", attributes := .ofList [("name", "out")] }] }] }]

def wanderer : Value :=
  .function 6 "wander" [] (.block [.block [.label "in"], .label "out"])

/-- A block of the three children is refused for its second `in`. The function that a new
interpreter installs for `wandering` can be given to it again, as it has been seen by then, and
all labels stay exact. -/
theorem wanderer_labels_exact :
    Block.make [.label "in", .label "out", .label "in"] =
      .error ⟨.malformedTree (.duplicateLabel "in"), #[]⟩ ∧
    Block.position? [.block [.label "in"], .label "out"] "out" = some 1 ∧
    ∃ it, ((Interpreter.new {} ()).perform echoing 4 (.program wandering)).state? = some it ∧
      it.lookup? "wander" = some wanderer ∧ wanderer.Indexed ∧
      ∀ fuel, (it.perform echoing fuel (.define "roam" wanderer)).Indexed fun _ _ => False := by
  obtain ⟨hblocks, -, hstates⟩ := label_index_exact
  refine ⟨?_, ?_, ?_⟩
  · refine ((hblocks _).2.2 _).2 ⟨2, "in", ⟨rfl, ⟨0, by decide, rfl⟩, ?_⟩, rfl⟩
    intro k hk other hother j hj
    obtain rfl : k = 1 := by omega
    obtain rfl : j = 0 := by omega
    cases hother
    simp
  · refine ((hblocks _).2.1 ?_ "out" 1).2 rfl
    exact Block.distinct_iff.2 (by decide)
  · have hfirst : ∃ it,
        ((Interpreter.new {} ()).perform echoing 4 (.program wandering)).state? = some it ∧
        it.globals.slot? "wander" = some (.plain wanderer) := ⟨_, rfl, rfl⟩
    obtain ⟨it, hit, hslot⟩ := hfirst
    have hcomes : (Interpreter.new {} ()).Comes echoing (fun _ _ => False) _ it :=
      .perform 4 .start (fun n hn => by cases hn) hit
    have hfound : it.config.Finds (fun _ => False) wanderer := .plain hslot (.self _)
    obtain ⟨hindexed, hnext⟩ := hstates echoing (fun _ _ => False) echoing_handsBack.passesOn _
      (fun v => new_not_isFunction) _ it hcomes
    refine ⟨it, hit, ?_, hindexed _ hfound, fun fuel => (hnext fuel _ ?_).2⟩
    · simp [Interpreter.lookup?, Environment.lookup?, hslot, Slot.value]
    · intro n hn
      cases hn
      refine Code.throughout_of_anywhere fun m hm => .inr ?_
      exact ⟨_, List.mem_cons_self, .left hit hfound hm⟩

end Treewalk
