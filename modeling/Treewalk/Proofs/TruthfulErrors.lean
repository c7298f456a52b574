import Treewalk.Proofs.CallNotes
import Treewalk.Proofs.WriteLocality

/-!
What errors say is so. Where all natives are builtin, an error of running names what went
wrong with the code at hand: a name that this code reads or assigns to, two numbers of
arguments that differ, a value that cannot be called, or an operand that is no number; and
no error of running is about the form of a tree. The code at hand is that which is
run and the bodies of the functions found at the start. Main statement: every
error is of this kind, and at the top a jump that is left over is one of that code.
-/
namespace Treewalk

variable {η : Type}

namespace Code

def Reads (n : Code) (name : Name) : Prop := Within (.var name) n

def JumpsTo (n : Code) (label : Name) : Prop := Within (.goto label) n

theorem Within.of_part {p n m : Code} (hpart : Part p n) (h : Within n m) : Within p m := by
  induction h with
  | self => exact .part (.self p) hpart
  | part h houter ih => exact .part ih houter

theorem holds_const_iff {u v : Value} : (Code.const u).Holds v ↔ v = u := by
  constructor
  · intro h
    cases h with
    | self => rfl
    | part h hpart => cases hpart
  · rintro rfl
    exact .self _

theorem not_holds_var {name : Name} {v : Value} : ¬ (Code.var name).Holds v := by
  intro h
  cases h with
  | part h hpart => cases hpart

theorem not_holds_goto {label : Name} {v : Value} : ¬ (Code.goto label).Holds v := by
  intro h
  cases h with
  | part h hpart => cases hpart

theorem holds_call_cases {callee : Code} {args : List Code} {v : Value}
    (h : (Code.call callee args).Holds v) : callee.Holds v ∨ ∃ arg ∈ args, arg.Holds v := by
  cases h with
  | part h hpart =>
    cases hpart with
    | callee => exact .inl h
    | arg _ hmem => exact .inr ⟨_, hmem, h⟩

end Code

def Value.IsData (v : Value) : Prop := ¬ v.IsFunction ∧ ∀ f, v ≠ .native f

theorem Value.isData_absent : Value.absent.IsData :=
  ⟨fun h => h, fun f h => by cases h⟩

theorem Value.IsData.typeName_mem {v : Value} (h : v.IsData) :
    v.typeName ∈ ["none", "bool", "number", "string"] := by
  cases v with
  | native f => exact absurd rfl (h.2 f)
  | function id name params body => exact absurd trivial h.1
  | _ => simp [typeName]

theorem Builtin.isData_of_result {b : Builtin} {args : List Value} {line : Option String}
    {v : Value} (h : b.result args = .ok (line, v)) : v.IsData := by
  refine ⟨not_isFunction_of_result h, ?_⟩
  rintro f rfl
  cases b with
  | print =>
    obtain ⟨a, -, heq⟩ := exists_of_map_eq_ok h
    cases heq
  | eq | plus | minus | mul | less =>
    obtain ⟨⟨x, y⟩, -, heq⟩ := exists_of_map_eq_ok h
    cases heq

theorem Host.isData_of_apply {host : Host η} {f : Native} {b : Builtin} {args : List Value}
    {w w' : World η} {v : Value} (hb : f.builtin? = some b)
    (h : host.apply f args w = (.ok v, w')) : v.IsData := by
  simp only [apply, hb, Builtin.apply] at h
  split at h
  · next hresult =>
    cases h
    exact Builtin.isData_of_result hresult
  · next hresult =>
    cases h
    exact Builtin.isData_of_result hresult
  · cases h

namespace Config

def BuiltinsOnly (given : Value → Prop) (c : Config η) : Prop :=
  ∀ f, c.Finds given (.native f) → ∃ b, f.builtin? = some b

/-- The code that a run can come by: code of its `own`, and the bodies of the functions at
hand when it starts. -/
inductive MayRun (own : Code → Prop) (given : Value → Prop) (c : Config η) : Code → Prop
  | own {n : Code} (h : own n) : MayRun own given c n
  | body {id : Nat} {name : Name} {params : List Name} {body : Code}
      (h : c.Finds given (.function id name params body)) : MayRun own given c body

/-- Plain data, or a value that was at hand when the run started. -/
def Knows (given : Value → Prop) (c : Config η) (v : Value) : Prop :=
  v.IsData ∨ c.Finds given v

/-- What such code holds was at hand at the start. -/
theorem MayRun.holds {own : Code → Prop} {given : Value → Prop} {c : Config η}
    (hown : ∀ n v, own n → n.Holds v → given v) {n : Code} (h : c.MayRun own given n) {v : Value}
    (hv : n.Holds v) : c.Finds given v := by
  cases h with
  | own h => exact .given (hown n v h hv) (.self v)
  | body h => exact h.reaches (.const hv (.self v))

end Config

/-- The error says what is so, where `runs` is the code at hand. -/
def Error.Truthful (runs : Code → Prop) (e : Error) : Prop :=
  match e.kind with
  | .unboundVariable name => ∃ n, runs n ∧ (n.Reads name ∨ n.Assigns name)
  | .invalidAssignment name => ∃ n, runs n ∧ n.Assigns name
  | .arityMismatch _ expected got => expected ≠ got
  | .notCallable typeName => typeName ∈ ["none", "bool", "number", "string"]
  | .typeMismatch expected got => expected = "number" ∧ got ≠ "number"
  | .malformedTree _ => False

theorem Builtin.Refusal.truthful {b : Builtin} {args : List Value} {e : Error}
    (h : b.Refusal args e) (runs : Code → Prop) : e.Truthful runs := by
  cases h with
  | count h => exact Ne.symm h
  | kind h hv => exact ⟨rfl, hv⟩

/-- Truthful errors as an invariant of running from `start`. All code that is run stands in
code at hand at the start, and all values but plain data were at hand then. -/
def vouching (host : Host η) {start : Config η} {own : Code → Prop} {given : Value → Prop}
    (hown : ∀ n v, own n → n.Holds v → given v) (hnatives : start.BuiltinsOnly given) :
    Invariant host where
  env e := e.Carries (start.Knows given) fun _ => True
  world w := w.cells.Carry (start.Knows given) fun _ => True
  value := start.Knows given
  cell _ := True
  code _ n := ∃ m, start.MayRun own given m ∧ Code.Within n m
  jump _ label := ∃ m, start.MayRun own given m ∧ m.JumpsTo label
  error := Error.Truthful (start.MayRun own given)
  absent := .inl Value.isData_absent
  part h hpart := by
    obtain ⟨m, hm, hwithin⟩ := h
    exact ⟨m, hm, hwithin.of_part hpart⟩
  const h := by
    obtain ⟨m, hm, hwithin⟩ := h
    exact .inr (hm.holds hown hwithin)
  body h := by
    rcases h with hdata | hfound
    · exact absurd trivial hdata.1
    · exact ⟨_, .body hfound, .self _⟩
  read he hw h := he.lookup? hw h
  bind name he hv := he.bindValue name hv
  define _ he hw := Config.define_carries (.inl Value.isData_absent) he hw _
  target _ _ _ := trivial
  store hw _ hv := hw.set _ hv
  native := by
    intro f args w w' r hf hargs hw happly
    have hfound : start.Finds given (.native f) := hf.resolve_left fun hdata => hdata.2 f rfl
    obtain ⟨b, hb⟩ := hnatives f hfound
    rcases Host.apply_cases happly with ⟨b', -, hcells, -, -, hrefusal⟩ | ⟨hnone, -⟩
    · refine ⟨hcells ▸ hw, ?_, fun e he => (hrefusal e he).truthful _⟩
      rintro v rfl
      exact .inl (Host.isData_of_apply hb happly)
    · cases hb.symm.trans hnone
  goto h := h
  pass h _ := h
  leave h := h
  unbound h := by
    obtain ⟨m, hm, hwithin⟩ := h
    exact ⟨m, hm, .inl hwithin⟩
  unassignable h := by
    obtain ⟨m, hm, hwithin⟩ := h
    exact ⟨⟨m, hm, .inr ⟨_, hwithin⟩⟩, m, hm, _, hwithin⟩
  arity _ hne := Ne.symm hne
  uncallable _ hfunction hnative := Value.IsData.typeName_mem ⟨hfunction, hnative⟩
  note _ h := h

section Vouching

variable {host : Host η} {start : Config η} {own : Code → Prop} {given : Value → Prop}
  (hown : ∀ n v, own n → n.Holds v → given v) (hnatives : start.BuiltinsOnly given)

/-- The invariant holds at the start. -/
theorem vouching_start : (vouching host hown hnatives).Holds start := by
  refine ⟨⟨?_, fun name cell hslot => trivial⟩, ⟨?_, fun cell hcell => trivial⟩⟩
  · exact fun name v hslot => .inr (.plain hslot (.self v))
  · exact fun cell _ => .inr (.contents cell (.self _))

theorem vouching_run (host : Host η) (fuel : Nat) {n : Code} (hn : own n) :
    (vouching host hown hnatives).Ends [] (vouching host hown hnatives).Holds
      (run host fuel n start) :=
  (vouching host hown hnatives).run_keeps fuel ⟨n, .own hn, .self n⟩
    (vouching_start hown hnatives)

theorem vouching_callValue (host : Host η) (fuel : Nat) {f : Value} (hf : start.Finds given f)
    {args : List Value} (hargs : ∀ a ∈ args, given a) :
    (vouching host hown hnatives).Ends [] (vouching host hown hnatives).world
      (callValue host (run host fuel) start.env f args start.world) := by
  have hstart : (vouching host hown hnatives).Holds start :=
    vouching_start hown hnatives
  have hknown : ∀ a ∈ args, start.Knows given a := fun a ha => .inr (.given (hargs a ha) (.self a))
  exact Invariant.callValue_ends ((vouching host hown hnatives).run_keeps fuel) hstart.1 (.inr hf)
    hknown hstart.2

variable {hown hnatives}

/-- At the top, an error about the form of a tree is for a jump of the code at hand. -/
theorem unresolved_of_vouching {σ : Type} {state : σ → Prop} {o : Outcome σ (Flow Value)}
    (ho : (vouching host hown hnatives).Ends [] state o) {e : Error}
    (h : (∃ s, o = .failed e s) ∨
      ∃ label s, o = .done (.jump label) s ∧ e = .malformed (.unresolvedGoto label))
    {cause : Malformed} (hcause : e.kind = .malformedTree cause) :
    ∃ label n, e = .malformed (.unresolvedGoto label) ∧ start.MayRun own given n ∧
      n.JumpsTo label := by
  rcases h with ⟨s, rfl⟩ | ⟨label, s, rfl, rfl⟩
  · have htruthful : e.Truthful (start.MayRun own given) := ho.1
    simp only [Error.Truthful, hcause] at htruthful
  · obtain ⟨n, hn, hjump⟩ := ho.1
    exact ⟨label, n, rfl, hn, hjump⟩

end Vouching

/-- A name that is bound has a value that is at hand. -/
theorem Interpreter.finds_of_lookup? {it : Interpreter η} {given : Value → Prop} {name : Name}
    {f : Value} (h : it.lookup? name = some f) : it.config.Finds given f := by
  obtain ⟨slot, hslot, rfl⟩ := Option.map_eq_some_iff.1 h
  cases slot with
  | plain v => exact .plain hslot (.self v)
  | cell cell => exact .contents cell (.self _)

/-- Errors are truthful. Let all natives at hand be builtin. Then no error of running code
or of calling a value is about the form of a tree, an arity mismatch has two different
numbers, what cannot be called is absent, a bool, a number or a text, an operand of the
wrong type is no number, and an unbound variable or a name that cannot be assigned to is
one that the code reads or assigns to, or the body of a function at hand does. So an
error about the form of a tree that a form or a call by name ends with is for a jump of
that code which no block has taken up. -/
theorem errors_are_truthful (host : Host η) (fuel : Nat) :
    (∀ (n : Code) (c c' : Config η) (e : Error), c.BuiltinsOnly n.Holds →
      run host fuel n c = .failed e c' → e.Truthful (c.MayRun (fun m => m = n) n.Holds)) ∧
    (∀ (f : Value) (args : List Value) (c : Config η) (w' : World η) (e : Error),
      c.BuiltinsOnly (fun v => v = f ∨ v ∈ args) →
      callValue host (run host fuel) c.env f args c.world = .failed e w' →
      e.Truthful (c.MayRun (fun _ => False) fun v => v = f ∨ v ∈ args)) ∧
    (∀ (form : Form) (it it' : Interpreter η) (e : Error) (cause : Malformed),
      it.config.BuiltinsOnly form.code.Holds →
      it.runForm (run host fuel) form = .failed e it' → e.kind = .malformedTree cause →
      ∃ label n, e = ⟨.malformedTree (.unresolvedGoto label), #[]⟩ ∧
        it.config.MayRun (fun m => m = form.code) form.code.Holds n ∧ n.JumpsTo label) ∧
    ∀ (name : Name) (args : List Value) (it it' : Interpreter η) (e : Error) (cause : Malformed),
      it.config.BuiltinsOnly (fun v => v ∈ args) →
      it.call host fuel name args = .failed e it' → e.kind = .malformedTree cause →
      ∃ label n, e = ⟨.malformedTree (.unresolvedGoto label), #[]⟩ ∧
        it.config.MayRun (fun _ => False) (fun v => v ∈ args) n ∧ n.JumpsTo label := by
  have hown : ∀ n m : Code, ∀ v, m = n → m.Holds v → n.Holds v := by
    rintro n _ v rfl hv
    exact hv
  have hnone : ∀ (given : Value → Prop) (m : Code) (v : Value), False → m.Holds v → given v :=
    fun _ _ _ h => h.elim
  refine ⟨?_, ?_, ?_, ?_⟩
  · intro n c c' e hnatives hrun
    have hends := vouching_run (hown n) hnatives host fuel rfl
    rw [hrun] at hends
    exact hends.1
  · intro f args c w' e hnatives hcall
    have hf : c.Finds (fun v => v = f ∨ v ∈ args) f := .given (.inl rfl) (.self f)
    have hends := vouching_callValue (hnone _) hnatives host fuel hf fun a ha => .inr ha
    rw [hcall] at hends
    exact hends.1
  · intro form it it' e cause hnatives hrun hcause
    have hends := vouching_run (hown form.code) hnatives host fuel rfl
    exact unresolved_of_vouching hends (Interpreter.runForm_failed_iff.1 ⟨it', hrun⟩) hcause
  · intro name args it it' e cause hnatives hcall hcause
    unfold Interpreter.call at hcall
    cases hlookup : it.lookup? name with
    | none =>
      rw [hlookup] at hcall
      cases hcall
      cases hcause
    | some f =>
      rw [hlookup] at hcall
      have hf : it.config.Finds (fun v => v ∈ args) f := Interpreter.finds_of_lookup? hlookup
      have hends := vouching_callValue (hnone _) hnatives host fuel hf fun a ha => ha
      exact unresolved_of_vouching hends ((Interpreter.settle_failed_iff e _ _).1 ⟨it', hcall⟩)
        hcause

def lessening : Value :=
  .function 6 "lessen" ["x"]
    (.call (.const (.native ⟨3, "minus", some .minus⟩)) [.var "x", .var "y"])

def escaping : Value := .function 7 "escape" [] (.goto "out")

def erring : Interpreter Unit :=
  ((Interpreter.new { prelude := false } ()).define "lessen" lessening).define "escape" escaping

/-- The one native that they hold is builtin. -/
theorem erring_builtinsOnly {given : Value → Prop}
    (hgiven : ∀ v f, given v → ¬ v.Reaches (.native f)) : erring.config.BuiltinsOnly given := by
  intro f hfound
  cases hfound with
  | given h hf => exact absurd hf (hgiven _ f h)
  | @plain name v h hf =>
    have hslot : erring.globals.slot? name = some (.plain v) := h
    simp only [erring, Interpreter.define, Environment.bindValue, Environment.slot?_bind] at hslot
    split at hslot
    · cases hslot
      cases hf with
      | const hconst hreach => exact absurd hconst Code.not_holds_goto
    · split at hslot
      · cases hslot
        cases hf with
        | const hconst hreach =>
          rcases Code.holds_call_cases hconst with hcallee | ⟨arg, hmem, harg⟩
          · cases Code.holds_const_iff.1 hcallee
            cases hreach
            exact ⟨.minus, rfl⟩
          · rcases List.mem_pair.1 hmem with rfl | rfl
            · exact absurd harg Code.not_holds_var
            · exact absurd harg Code.not_holds_var
      · cases hslot
  | contents cell hf =>
    have hempty : erring.config.world.cells.get cell = .absent :=
      Cells.get_of_size_le (Nat.zero_le cell)
    rw [hempty] at hf
    cases hf

/-- The call of `lessen` fails for the `y` that its body reads, and the call of `escape` for
the jump in its body. -/
theorem erring_truthfully :
    (∃ c', run echoing 8 (.call (.var "lessen") [.const (.text "one")]) erring.config =
        .failed ((Error.unboundVariable "y").withNote (callNote "lessen")) c' ∧
      ((Error.unboundVariable "y").withNote (callNote "lessen")).Truthful
        (erring.config.MayRun (fun m => m = .call (.var "lessen") [.const (.text "one")])
          (Code.call (.var "lessen") [.const (.text "one")]).Holds)) ∧
    ∃ e it', erring.call echoing 8 "escape" [] = .failed e it' ∧
      ∃ label n, e = ⟨.malformedTree (.unresolvedGoto label), #[]⟩ ∧
        erring.config.MayRun (fun _ => False) (fun v => v ∈ []) n ∧ n.JumpsTo label := by
  have htruthful := errors_are_truthful echoing 8
  refine ⟨⟨_, rfl, htruthful.1 _ _ _ _ (erring_builtinsOnly ?_) rfl⟩, _, _, rfl,
    htruthful.2.2.2 "escape" [] erring _ _ _ (erring_builtinsOnly ?_) rfl rfl⟩
  · intro v f hv hreach
    rcases Code.holds_call_cases hv with hcallee | ⟨arg, hmem, harg⟩
    · exact Code.not_holds_var hcallee
    · cases List.mem_singleton.1 hmem
      cases Code.holds_const_iff.1 harg
      cases hreach
  · simp

end Treewalk
