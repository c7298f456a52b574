import Treewalk.Proofs.Compilation
import Treewalk.Proofs.Trace
import Treewalk.Proofs.Values

/-!
Invariants over programs and calls by name. If every form of a program compiles
to code that satisfies an invariant of running, then the program keeps the
invariant of the globals, and so does every call by name after it; the
invariant then holds at all their points, and bounds the errors they end with.
-/
namespace Treewalk

variable {η : Type}

def Outcome.Meets {σ α : Type} (value : α → Prop) (error : Error → Prop) (state : σ → Prop) :
    Outcome σ α → Prop
  | done a s => value a ∧ state s
  | failed e s => error e ∧ state s
  | outOfFuel => True

theorem Outcome.Meets.of_state? {σ α : Type} {value : α → Prop} {error : Error → Prop}
    {state : σ → Prop} {o : Outcome σ α} (h : o.Meets value error state) {s : σ}
    (hs : o.state? = some s) : state s := by
  cases o with
  | done a t =>
    cases hs
    exact h.2
  | failed e t =>
    cases hs
    exact h.2
  | outOfFuel => cases hs

namespace Interpreter

theorem lookup?_register (it : Interpreter η) (f : Native) (name : Name) :
    (it.register f).lookup? name =
      if name = f.name then some (.native f) else it.lookup? name := by
  simp only [lookup?, register, define, Environment.lookup?, Environment.bindValue,
    Environment.slot?_bind]
  split <;> rfl

/-- A new interpreter holds natives and nothing else. -/
theorem lookup?_new {conf : Configuration} {host : η} {name : Name} {v : Value}
    (h : (new conf host).lookup? name = some v) : ∃ f, v = .native f := by
  have hfold : ∀ (natives : List Native) (it : Interpreter η),
      (∀ v, it.lookup? name = some v → ∃ f, v = .native f) →
      (natives.foldl register it).lookup? name = some v → ∃ f, v = .native f := by
    intro natives
    induction natives with
    | nil => exact fun it hit hlookup => hit v hlookup
    | cons f natives ih =>
      intro it hit
      refine ih (it.register f) ?_
      intro u hu
      rw [lookup?_register] at hu
      split at hu
      · exact ⟨f, (Option.some.inj hu).symm⟩
      · exact hit u hu
  unfold new at h
  split at h
  · refine hfold _ _ ?_ h
    intro u hu
    cases hu
  · cases h

/-- Cells that code run on the interpreter can come by: those of the globals and those
still to be made. -/
def InPlay (it : Interpreter η) (cell : CellId) : Prop :=
  (∃ name, it.globals.slot? name = some (.cell cell)) ∨ it.world.cells.size ≤ cell

/-- Globals without user functions carry whatever is true of all other values. -/
theorem carries_of_data {value : Value → Prop} (hdata : ∀ v, ¬ v.IsFunction → value v)
    {it : Interpreter η} (h : ∀ name v, it.lookup? name = some v → ¬ v.IsFunction) :
    it.globals.Carries value it.InPlay ∧ it.world.cells.Carry value it.InPlay := by
  refine ⟨⟨?_, fun name c hslot => .inl ⟨name, hslot⟩⟩, ⟨?_, fun c hc => .inr hc⟩⟩
  · intro name v hslot
    refine hdata v (h name v ?_)
    simp [lookup?, Environment.lookup?, hslot, Slot.value]
  · rintro c (⟨name, hslot⟩ | hc)
    · refine hdata _ (h name _ ?_)
      simp [lookup?, Environment.lookup?, hslot, Slot.value]
    · rw [Cells.get_of_size_le hc]
      exact hdata _ fun h => h

/-- Compiling gives away an identity, and changes nothing else. -/
theorem eq_of_compile {it it' : Interpreter η} {tree : Tree} {form : Form}
    (h : it.compile tree = .ok (form, it')) : it' = { it with nextId := it.nextId + 1 } := by
  unfold compile at h
  cases hcode : Treewalk.compile it.scope tree with
  | error e =>
    rw [hcode] at h
    cases h
  | ok code =>
    rw [hcode] at h
    cases h
    rfl

theorem state?_settle (o : Outcome (Interpreter η) (Flow Value)) :
    (settle o).state? = o.state? := by
  cases o with
  | done flow it => cases flow <;> rfl
  | failed e it => rfl
  | outOfFuel => rfl

/-- A form that does not define a function leaves what its code leaves. -/
theorem state?_runForm {runner : Runner (Config η)} {form : Form}
    (hform : ∀ name params body, form.code ≠ .definition name params body)
    (it : Interpreter η) :
    (runForm runner form it).state? = (runner form.code it.config).state?.map it.withConfig := by
  rw [← Outcome.state?_mapState, ← state?_settle]
  unfold runForm
  split
  · next name params body hcode => exact absurd hcode (hform name params body)
  · split
    · next v it' ho =>
      rw [ho]
      rfl
    · next e it' ho =>
      rw [ho]
      rfl
    · next ho =>
      rw [ho]
      rfl

end Interpreter

namespace Invariant

variable {host : Host η} (I : Invariant host)

def Governs (it : Interpreter η) : Prop := I.Holds it.config

/-- A tree whose code satisfies the invariant, wherever it is compiled; if it defines a
function, so does that function. -/
def Accepts (tree : Tree) : Prop :=
  ∀ {it : Interpreter η} {code : Code}, I.Governs it → compile it.scope tree = .ok code →
    I.code [] code ∧ ∀ (id : Nat) (name : Name) (params : List Name) (body : Code),
      code = .definition name params body → I.value (.function id name params body)

/-- What a name is called for satisfies the invariant. -/
theorem target_value {I : Invariant host} {it : Interpreter η} (hit : I.Governs it)
    (name : Name) : I.value (it.scope.target name) := by
  simp only [Interpreter.scope, Interpreter.lookup?]
  cases hlookup : it.globals.lookup? it.world.cells name with
  | none => exact I.absent
  | some v => exact I.read hit.1 hit.2 hlookup

/-- Errors that include all a program can fail with under the invariant. -/
structure Covers (E : Error → Prop) : Prop where
  running {e : Error} : I.error e → E e
  jumping {label : Name} : I.jump [] label → E (.malformed (.unresolvedGoto label))
  compiling {e : Error} : e.IsViolation → E e
  noting {e : Error} (note : String) : E e → E (e.withNote note)

theorem covers_all : I.Covers fun _ => True :=
  ⟨fun _ => trivial, fun _ => trivial, fun _ => trivial, fun _ _ => trivial⟩

variable {I} {E : Error → Prop}

theorem settle_meets (hE : I.Covers E) {state : Interpreter η → Prop}
    {o : Outcome (Interpreter η) (Flow Value)} (h : I.Ends [] state o) :
    (Interpreter.settle o).Meets I.value E state := by
  cases o with
  | done flow it =>
    cases flow with
    | value v => exact h
    | jump label => exact ⟨hE.jumping h.1, h.2⟩
  | failed e it => exact ⟨hE.running h.1, h.2⟩
  | outOfFuel => trivial

theorem runForm_meets (hE : I.Covers E) (fuel : Nat) {form : Form} (hcode : I.code [] form.code)
    (hdefinition : ∀ name params body, form.code = .definition name params body →
      I.value (.function form.id name params body))
    {it : Interpreter η} (hit : I.Governs it) :
    (Interpreter.runForm (run host fuel) form it).Meets (fun r => ∀ v ∈ r, I.value v) E
      I.Governs := by
  unfold Interpreter.runForm
  split
  · next name params body hform =>
    refine ⟨by simp, ?_, hit.2⟩
    exact I.bind name hit.1 (hdefinition name params body hform)
  · have hrun : I.Ends [] I.Governs ((run host fuel form.code it.config).mapState it.withConfig) :=
      (I.run_keeps fuel hcode hit).mapState fun c hc => hc
    have hsettle := settle_meets hE hrun
    split
    · next v it' ho =>
      rw [ho] at hsettle
      exact ⟨by simpa using hsettle.1, hsettle.2⟩
    · next e it' ho =>
      rw [ho] at hsettle
      exact hsettle
    · trivial

theorem runTree_meets (hE : I.Covers E) (fuel : Nat) {tree : Tree} (htree : I.Accepts tree)
    {it : Interpreter η} (hit : I.Governs it) :
    (Interpreter.runTree (run host fuel) tree it).Meets (fun r => ∀ v ∈ r, I.value v) E
      I.Governs := by
  unfold Interpreter.runTree Interpreter.compile
  cases hcompile : compile it.scope tree with
  | error e => exact ⟨hE.compiling (isViolation_of_compile hcompile), hit⟩
  | ok code =>
    obtain ⟨hcode, hdefinition⟩ := htree hit hcompile
    exact runForm_meets hE fuel hcode (hdefinition it.nextId) hit

/-- A program keeps the invariant, form by form. -/
theorem runForms_meets (hE : I.Covers E) (fuel : Nat) {trees : List Tree}
    (htrees : ∀ tree ∈ trees, I.Accepts tree) (index : Nat) {result : Value}
    (hresult : I.value result) {it : Interpreter η} (hit : I.Governs it) :
    (Interpreter.runForms (run host fuel) index trees result it).Meets I.value E I.Governs := by
  induction trees generalizing index result it with
  | nil => exact ⟨hresult, hit⟩
  | cons tree trees ih =>
    have hfirst := runTree_meets hE fuel (htrees tree (by simp)) hit
    simp only [Interpreter.runForms]
    split
    · next r it' ho =>
      rw [ho] at hfirst
      refine ih (fun t ht => htrees t (by simp [ht])) (index + 1) ?_ hfirst.2
      cases r with
      | none => exact hresult
      | some v => exact hfirst.1 v rfl
    · next e it' ho =>
      rw [ho] at hfirst
      exact ⟨hE.noting _ hfirst.1, hfirst.2⟩
    · trivial

/-- A call by name keeps the invariant. -/
theorem call_meets (hE : I.Covers E) (fuel : Nat) (name : Name)
    (hname : E (.unboundVariable name)) {args : List Value} (hargs : ∀ a ∈ args, I.value a)
    {it : Interpreter η} (hit : I.Governs it) :
    (it.call host fuel name args).Meets I.value E I.Governs := by
  unfold Interpreter.call
  cases hlookup : it.lookup? name with
  | none => exact ⟨hname, hit⟩
  | some f =>
    have hf : I.value f := I.read hit.1 hit.2 hlookup
    have hcall := callValue_ends (I.run_keeps fuel) hit.1 hf hargs hit.2
    exact settle_meets hE (hcall.mapState fun w hw => ⟨hit.1, hw⟩)

theorem at_formPoints (fuel : Nat) {trees : List Tree}
    (htrees : ∀ tree ∈ trees, I.Accepts tree) {it : Interpreter η} (hit : I.Governs it) :
    ∀ event ∈ Interpreter.formPoints (run host fuel) ((copying host).trace fuel) trees it,
      I.At event := by
  induction trees generalizing it with
  | nil => simp [Interpreter.formPoints]
  | cons tree trees ih =>
    have htree : I.Accepts tree := htrees tree (by simp)
    have hfirst := runTree_meets I.covers_all fuel htree hit
    unfold Interpreter.runTree Interpreter.compile at hfirst
    unfold Interpreter.formPoints Interpreter.compile
    cases hcompile : compile it.scope tree with
    | error e => simp [Except.map]
    | ok code =>
      obtain ⟨hcode, -⟩ := htree hit hcompile
      rw [hcompile] at hfirst
      simp only [Except.map] at hfirst ⊢
      refine at_append ?_ ?_
      · split
        · simp
        · exact I.at_trace fuel hcode hit
      · split
        · next r it' ho =>
          rw [ho] at hfirst
          exact ih (fun t ht => htrees t (by simp [ht])) hfirst.2
        · simp

theorem at_callTrace (fuel : Nat) (name : Name) {args : List Value}
    (hargs : ∀ a ∈ args, I.value a) {it : Interpreter η} (hit : I.Governs it) :
    ∀ event ∈ it.callTrace host fuel name args, I.At event := by
  unfold Interpreter.callTrace
  cases hlookup : it.lookup? name with
  | none => simp
  | some f => exact at_callPoints (I.at_trace fuel) fuel (I.read hit.1 hit.2 hlookup) hargs hit

end Invariant

end Treewalk
