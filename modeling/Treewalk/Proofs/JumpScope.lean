import Treewalk.Proofs.Natives
import Treewalk.Proofs.Programs
import Treewalk.Proofs.Values

/-!
Jumps that stay in the scope of their labels. If every jump in a program goes to
a label of a block around it, in the same form or function body, then no jump
leaves a function and none is left over at the top, whatever is called. The
invariant behind this is that every function in reach is sealed: no jump leaves
its body, nor the bodies of the functions held in it.
-/
namespace Treewalk

variable {η : Type}

namespace Tree

/-- The labels that jumps may go to from the children of a tree, if they may go to
`labels` from the tree itself. A block adds those of its direct children; nothing
around a function is in reach from its body. -/
def scope (labels : List Name) (tree : Tree) : List Name :=
  match tree.form? with
  | some .block => labels ++ tree.children.filterMap label?
  | some .function => []
  | _ => labels

mutual

/-- Every jump in the tree goes to one of `labels` or to a label of a block around it,
in the same function body. -/
def jumpsScoped (labels : List Name) : Tree → Bool
  | ⟨tag, attributes, children⟩ =>
    (target? ⟨tag, attributes, children⟩).all (fun label => labels.contains label) &&
      eachScoped (scope labels ⟨tag, attributes, children⟩) children

def eachScoped (labels : List Name) : List Tree → Bool
  | [] => true
  | tree :: trees => tree.jumpsScoped labels && eachScoped labels trees

end

theorem eachScoped_iff {labels : List Name} {trees : List Tree} :
    eachScoped labels trees ↔ ∀ tree ∈ trees, tree.jumpsScoped labels := by
  induction trees with
  | nil => simp [eachScoped]
  | cons tree trees ih => simp [eachScoped, ih]

theorem jumpsScoped_iff {labels : List Name} {tree : Tree} :
    tree.jumpsScoped labels ↔ (∀ label, tree.target? = some label → label ∈ labels) ∧
      ∀ child ∈ tree.children, child.jumpsScoped (tree.scope labels) := by
  obtain ⟨tag, attributes, children⟩ := tree
  rw [jumpsScoped, Bool.and_eq_true, eachScoped_iff]
  refine and_congr_left' ?_
  cases target? ⟨tag, attributes, children⟩ <;> simp

end Tree

namespace Code

/-- The code `m` stands in `n` with the labels `inner` in reach, those in reach from
`n` being `outer`. -/
inductive Under : List Name → Code → List Name → Code → Prop
  | self (labels : List Name) (n : Code) : Under labels n labels n
  | part {inner outer : List Name} {m p n : Code} :
      Part p n → Under inner m (n.scope outer) p → Under inner m outer n

def JumpsStay (labels : List Name) (n : Code) : Prop :=
  ∀ inner label, Under inner (.goto label) labels n → label ∈ inner

end Code

/-- No jump leaves the body of a function found in the value. -/
def Value.Sealed (v : Value) : Prop :=
  ∀ id name params body, v.Reaches (.function id name params body) → body.JumpsStay []

structure Code.Scoped (labels : List Name) (n : Code) : Prop where
  jumps : n.JumpsStay labels
  constants : ∀ v, Code.Within (.const v) n → v.Sealed

theorem Value.sealed_of_not_isFunction {v : Value} (h : ¬ v.IsFunction) : v.Sealed := by
  intro id name params body hreach
  cases hreach with
  | self => exact absurd trivial h
  | const hconst hreach => exact absurd trivial h

theorem Value.sealed_function {id : Nat} {name : Name} {params : List Name} {body : Code}
    (h : body.Scoped []) : (Value.function id name params body).Sealed := by
  intro id' name' params' body' hreach
  cases hreach with
  | self => exact h.jumps
  | const hconst hreach => exact h.constants _ hconst id' name' params' body' hreach

theorem Value.Sealed.body {id : Nat} {name : Name} {params : List Name} {body : Code}
    (h : (Value.function id name params body).Sealed) : body.Scoped [] where
  jumps := h id name params body (.self _)
  constants _ hconst id' name' params' body' hreach :=
    h id' name' params' body' (.const hconst hreach)

theorem Code.Scoped.part {labels : List Name} {n p : Code} (h : n.Scoped labels)
    (hpart : Code.Part p n) : p.Scoped (n.scope labels) where
  jumps inner label hunder := h.jumps inner label (.part hpart hunder)
  constants v hwithin := h.constants v (.part hwithin hpart)

theorem Code.scoped_of_parts {labels : List Name} {n : Code}
    (hgoto : ∀ label, n = .goto label → label ∈ labels) (hconst : ∀ v, n = .const v → v.Sealed)
    (hparts : ∀ p, Code.Part p n → p.Scoped (n.scope labels)) : n.Scoped labels where
  jumps inner label hunder := by
    cases hunder with
    | self => exact hgoto label rfl
    | part hpart hunder => exact (hparts _ hpart).jumps inner label hunder
  constants v hwithin := by
    cases hwithin with
    | self => exact hconst v rfl
    | part hwithin hpart => exact (hparts _ hpart).constants v hwithin

/-- Compilation keeps jumps in reach and seals the constants, if it has only sealed
values to call by name. -/
theorem scoped_of_compile {scope : Scope} (htarget : ∀ name, (scope.target name).Sealed)
    {tree : Tree} {labels : List Name} (htree : tree.jumpsScoped labels) {code : Code}
    (h : compile scope tree = .ok code) : code.Scoped labels := by
  induction tree using Tree.induction generalizing labels code with
  | h tree ih =>
    obtain ⟨hjump, hchildren⟩ := Tree.jumpsScoped_iff.1 htree
    have hchild : ∀ child ∈ tree.children, ∀ n, compile scope child = .ok n →
        n.Scoped (tree.scope labels) :=
      fun child hmem n hn => ih child hmem (hchildren child hmem) hn
    have hdata : ∀ v : Value, ¬ v.IsFunction → (Code.const v).Scoped labels := by
      intro v hv
      refine Code.scoped_of_parts (fun _ heq => by cases heq) ?_ (fun p hpart => by cases hpart)
      intro u hu
      cases hu
      exact Value.sealed_of_not_isFunction hv
    cases compiled_of_compile h with
    | ignored hform hpolicy => exact hdata _ fun hv => hv
    | number hform hvalue hliteral => exact hdata _ fun hv => hv
    | text hform hvalue => exact hdata _ fun hv => hv
    | read hform hname | declare hform hname | label hform hname
    | function hform hname hchildren hbody =>
      exact Code.scoped_of_parts (fun _ heq => by cases heq) (fun _ heq => by cases heq)
        (fun p hpart => by cases hpart)
    | goto hform hname =>
      refine Code.scoped_of_parts ?_ (fun _ heq => by cases heq) (fun p hpart => by cases hpart)
      intro label heq
      cases heq
      exact hjump _ (by simp [Tree.target?, hform, hname])
    | block hform hcodes hlabels =>
      refine Code.scoped_of_parts (fun _ heq => by cases heq) (fun _ heq => by cases heq) ?_
      intro p hpart
      cases hpart with
      | child hmem =>
        obtain ⟨child, hmem, hcode⟩ := exists_of_mem_compiled hcodes hmem
        have hscoped := hchild child hmem p hcode
        simpa only [Tree.scope, hform, Code.scope, labels_of_compile hcodes] using hscoped
    | store hform hname heq hexpr =>
      have hscope : tree.scope labels = labels := by simp only [Tree.scope, hform]
      rw [hscope, heq] at hchild
      refine Code.scoped_of_parts (fun _ heq => by cases heq) (fun _ heq => by cases heq) ?_
      intro p hpart
      cases hpart with
      | expr => exact hchild _ (by simp) _ hexpr
    | when hform heq htest hbody =>
      have hscope : tree.scope labels = labels := by simp only [Tree.scope, hform]
      rw [hscope, heq] at hchild
      refine Code.scoped_of_parts (fun _ heq => by cases heq) (fun _ heq => by cases heq) ?_
      intro p hpart
      cases hpart with
      | whenTest => exact hchild _ (by simp) _ htest
      | whenBody => exact hchild _ (by simp) _ hbody
    | choose hform heq htest hyes hno =>
      have hscope : tree.scope labels = labels := by simp only [Tree.scope, hform]
      rw [hscope, heq] at hchild
      refine Code.scoped_of_parts (fun _ heq => by cases heq) (fun _ heq => by cases heq) ?_
      intro p hpart
      cases hpart with
      | test => exact hchild _ (by simp) _ htest
      | yes => exact hchild _ (by simp) _ hyes
      | no => exact hchild _ (by simp) _ hno
    | callName hform hfun hargs =>
      have hscope : tree.scope labels = labels := by simp only [Tree.scope, hform]
      rw [hscope] at hchild
      refine Code.scoped_of_parts (fun _ heq => by cases heq) (fun _ heq => by cases heq) ?_
      intro p hpart
      cases hpart with
      | callee =>
        refine Code.scoped_of_parts (fun _ heq => by cases heq) ?_ (fun p hpart => by cases hpart)
        intro v hv
        cases hv
        exact htarget _
      | arg _ hmem =>
        obtain ⟨child, hmem, hcode⟩ := exists_of_mem_compiled hargs hmem
        exact hchild child hmem p hcode
    | call hform hfun heq hcallee hargs =>
      have hscope : tree.scope labels = labels := by simp only [Tree.scope, hform]
      rw [hscope, heq] at hchild
      refine Code.scoped_of_parts (fun _ heq => by cases heq) (fun _ heq => by cases heq) ?_
      intro p hpart
      cases hpart with
      | callee => exact hchild _ (by simp) _ hcallee
      | arg _ hmem =>
        obtain ⟨child, hmem, hcode⟩ := exists_of_mem_compiled hargs hmem
        exact hchild child (by simp [hmem]) p hcode

/-- Sealed values, and code whose jumps stay in reach, as an invariant of running. The
cells in play are those that running code can come by. -/
def sealing {host : Host η} {held : η → Value → Prop} (hback : host.HandsBack held)
    (hfail : host.NeverMalformed) (inPlay : CellId → Prop) : Invariant host where
  env e := e.Carries Value.Sealed inPlay
  world w := w.cells.Carry Value.Sealed inPlay ∧ ∀ v, held w.host v → v.Sealed
  value := Value.Sealed
  cell _ := True
  code := Code.Scoped
  jump labels label := label ∈ labels
  error e := ∀ cause, e.kind ≠ .malformedTree cause
  absent := Value.sealed_of_not_isFunction fun h => h
  part h hpart := h.part hpart
  const h := h.constants _ (.self _)
  body h := h.body
  read he hw h := he.lookup? hw.1 h
  bind name he hv := he.bindValue name hv
  define := by
    intro labels name c _ he hw
    have habsent : Value.absent.Sealed := Value.sealed_of_not_isFunction fun h => h
    have hdefine := Config.define_carries habsent he hw.1 name
    exact ⟨hdefine.1, hdefine.2, hw.2⟩
  target _ _ _ := trivial
  store hw _ hv := ⟨hw.1.set _ hv, hw.2⟩
  native _ hargs hw happly := by
    have hdata : ∀ v : Value, ¬ v.IsFunction → v.Sealed := fun _ => Value.sealed_of_not_isFunction
    obtain ⟨hworld, hvalue⟩ := hback.apply_carries hdata hargs hw happly
    refine ⟨hworld, hvalue, ?_⟩
    rcases Host.apply_cases happly with ⟨b, -, -, -, -, herror⟩ | ⟨-, rfl, -⟩
    · intro e he cause
      cases herror e he <;> intro h <;> cases h
    · intro e he cause
      exact hfail _ _ _ _ e cause he
  goto h := h.jumps _ _ (.self _ _)
  pass h hposition := by
    rcases List.mem_append.1 h with h | h
    · exact h
    · exact absurd h (Block.position?_eq_none_iff.1 hposition)
  leave h := by cases h
  unbound _ _ h := by cases h
  unassignable _ := ⟨fun _ h => (by cases h), fun _ h => (by cases h)⟩
  arity _ _ _ h := by cases h
  uncallable _ _ _ _ h := by cases h
  note _ h := h

/-- A tree with scoped jumps satisfies the invariant wherever it is compiled. -/
theorem sealing_accepts {host : Host η} {held : η → Value → Prop} (hback : host.HandsBack held)
    (hfail : host.NeverMalformed) (inPlay : CellId → Prop) {tree : Tree}
    (htree : tree.jumpsScoped []) : (sealing hback hfail inPlay).Accepts tree := by
  intro it code hit hcompile
  have htarget : ∀ name, (it.scope.target name).Sealed := Invariant.target_value hit
  refine ⟨scoped_of_compile htarget htree hcompile, ?_⟩
  rintro id name params body rfl
  cases compiled_of_compile hcompile with
  | function hform hname hchildren hbody =>
    have hchild := (Tree.jumpsScoped_iff.1 htree).2
    simp only [Tree.scope, hform, hchildren, List.mem_singleton, forall_eq] at hchild
    exact Value.sealed_function (scoped_of_compile htarget hchild hbody)

namespace Interpreter

/-- The function `f` is one of the program: after some of its forms, a name stands for it. -/
def Installs (host : Host η) (root : Tree) (it : Interpreter η) (f : Value) : Prop :=
  ∃ fuel count result it' name,
    runForms (run host fuel) 0 (root.children.take count) .absent it = .done result it' ∧
      it'.lookup? name = some f

/-- The second interpreter is what calls by name can leave of the first, if the functions
among their arguments are among `given`. -/
inductive Later (host : Host η) (given : Value → Prop) : Interpreter η → Interpreter η → Prop
  | start (it : Interpreter η) : Later host given it it
  | call {it it' it'' : Interpreter η} {fuel : Nat} {name : Name} {args : List Value} :
      Later host given it it' → (∀ a ∈ args, a.IsFunction → given a) →
      (it'.call host fuel name args).state? = some it'' → Later host given it it''

theorem carries_of_no_function {it : Interpreter η}
    (h : ∀ name v, it.lookup? name = some v → ¬ v.IsFunction) :
    it.globals.Carries Value.Sealed it.InPlay ∧ it.world.cells.Carry Value.Sealed it.InPlay :=
  carries_of_data (fun _ => Value.sealed_of_not_isFunction) h

end Interpreter

def Error.IsUnresolved (e : Error) : Prop :=
  ∃ label, e.kind = .malformedTree (.unresolvedGoto label)

def Event.CallJumps (host : Host η) : Event (Config η) → Prop
  | .node .. => False
  | .call fuel f args c => ∃ label w,
      callValue host (run host fuel) c.env f args c.world = .done (.jump label) w

section Sealing

variable {host : Host η} {held : η → Value → Prop} {hback : host.HandsBack held}
  {hfail : host.NeverMalformed} {inPlay : CellId → Prop}

theorem sealing_covers :
    (sealing hback hfail inPlay).Covers fun e => ¬ e.IsUnresolved where
  running h hunresolved := by
    obtain ⟨label, hkind⟩ := hunresolved
    exact h _ hkind
  jumping h := by cases h
  compiling h hunresolved := by
    obtain ⟨cause, rfl, hcause⟩ := h
    obtain ⟨label, hkind⟩ := hunresolved
    exact hcause label (ErrorKind.malformedTree.inj hkind)
  noting _ h := h

theorem not_callJumps_of_sealing {event : Event (Config η)}
    (h : (sealing hback hfail inPlay).At event) : ¬ event.CallJumps host := by
  cases event with
  | node fuel n c => exact fun hjump => hjump
  | call fuel f args c =>
    rintro ⟨label, w, hjump⟩
    obtain ⟨hf, hargs, hc⟩ := h
    have hends := Invariant.callValue_ends (Invariant.run_keeps _ fuel) hc.1 hf hargs hc.2
    rw [hjump] at hends
    -- The labels around a function body are none.
    exact absurd hends.1 List.not_mem_nil

theorem sealed_of_installs {root : Tree} (hroot : ∀ form ∈ root.children, form.jumpsScoped [])
    {it : Interpreter η} (hit : (sealing hback hfail inPlay).Governs it) {f : Value}
    (h : it.Installs host root f) : f.Sealed := by
  obtain ⟨fuel, count, result, it', name, hrun, hlookup⟩ := h
  have htake : ∀ form ∈ root.children.take count, (sealing hback hfail inPlay).Accepts form :=
    fun form hform => sealing_accepts hback hfail inPlay (hroot form (List.mem_of_mem_take hform))
  have habsent : Value.absent.Sealed := Value.sealed_of_not_isFunction fun h => h
  have hmeets := Invariant.runForms_meets (Invariant.covers_all _) fuel htake 0 habsent hit
  rw [hrun] at hmeets
  exact hmeets.2.1.lookup? hmeets.2.2.1 hlookup

theorem sealed_of_given {given : Value → Prop} (hgiven : ∀ v, given v → v.Sealed)
    {args : List Value} (hargs : ∀ a ∈ args, a.IsFunction → given a) :
    ∀ a ∈ args, a.Sealed := by
  intro a ha
  by_cases hfunction : a.IsFunction
  · exact hgiven a (hargs a ha hfunction)
  · exact Value.sealed_of_not_isFunction hfunction

theorem governs_of_later {given : Value → Prop} (hgiven : ∀ v, given v → v.Sealed)
    {it it' : Interpreter η} (hit : (sealing hback hfail inPlay).Governs it)
    (h : Interpreter.Later host given it it') : (sealing hback hfail inPlay).Governs it' := by
  induction h with
  | start => exact hit
  | @call it₁ it₂ fuel name args hlater hargs hstate ih =>
    have hcovers := Invariant.covers_all (sealing hback hfail inPlay)
    have hsealed := sealed_of_given hgiven hargs
    exact (Invariant.call_meets hcovers fuel name trivial hsealed ih).of_state? hstate

end Sealing

/-- Scoped jumps are always taken up. Let natives, also those among the arguments of later
calls, give functions back only, in their answers and to the cells they hold, and let them
not fail as if a tree were malformed. Started without user functions, a program whose
jumps go to labels around them never fails for an unresolved jump, none of its calls
ends with a jump, and the same holds of all later calls by name with functions of the
program as arguments. -/
theorem scoped_jumps_resolve {host : Host η} {held : η → Value → Prop}
    (hback : host.HandsBack held) (hfail : host.NeverMalformed) {it : Interpreter η}
    (hheld : ∀ v, held it.world.host v → ¬ v.IsFunction)
    (hglobals : ∀ name v, it.lookup? name = some v → ¬ v.IsFunction) {root : Tree}
    (hroot : ∀ form ∈ root.children, form.jumpsScoped []) (fuel : Nat) :
    (∀ e it', it.runProgram (run host fuel) root = .failed e it' → ¬ e.IsUnresolved) ∧
    (∀ event ∈ it.programTrace host fuel root, ¬ event.CallJumps host) ∧
    ∀ it₁ it₂, (it.runProgram (run host fuel) root).state? = some it₁ →
      Interpreter.Later host (it.Installs host root) it₁ it₂ →
      ∀ fuel' name args, (∀ a ∈ args, a.IsFunction → it.Installs host root a) →
        (∀ e it', it₂.call host fuel' name args = .failed e it' → ¬ e.IsUnresolved) ∧
        ∀ event ∈ it₂.callTrace host fuel' name args, ¬ event.CallJumps host := by
  obtain ⟨henv, hcells⟩ := Interpreter.carries_of_no_function hglobals
  have hit : (sealing hback hfail it.InPlay).Governs it :=
    ⟨henv, hcells, fun v hv => Value.sealed_of_not_isFunction (hheld v hv)⟩
  have hforms : ∀ form ∈ root.children, (sealing hback hfail it.InPlay).Accepts form :=
    fun form hform => sealing_accepts hback hfail it.InPlay (hroot form hform)
  have habsent : Value.absent.Sealed := Value.sealed_of_not_isFunction fun h => h
  have hprogram := Invariant.runForms_meets sealing_covers fuel hforms 0 habsent hit
  refine ⟨?_, ?_, ?_⟩
  · intro e it' hfailed
    unfold Interpreter.runProgram at hfailed
    rw [hfailed] at hprogram
    exact hprogram.1
  · intro event hevent
    exact not_callJumps_of_sealing (Invariant.at_formPoints fuel hforms hit event hevent)
  · intro it₁ it₂ hstate hlater fuel' name args hargs
    have hit₁ : (sealing hback hfail it.InPlay).Governs it₁ := hprogram.of_state? hstate
    have hinstalls : ∀ v, it.Installs host root v → v.Sealed :=
      fun v hv => sealed_of_installs hroot hit hv
    have hit₂ := governs_of_later hinstalls hit₁ hlater
    have hsealed := sealed_of_given hinstalls hargs
    have hname : ¬ (Error.unboundVariable name).IsUnresolved := by
      rintro ⟨label, hkind⟩
      cases hkind
    refine ⟨?_, ?_⟩
    · intro e it' hfailed
      have hcall := Invariant.call_meets sealing_covers fuel' name hname hsealed hit₂
      rw [hfailed] at hcall
      exact hcall.1
    · intro event hevent
      exact not_callJumps_of_sealing (Invariant.at_callTrace fuel' name hsealed hit₂ event hevent)

def settling : Tree where
  tag := "program"
  children := [
    { tag := "function", attributes := .ofList [("name", "settle"), ("args", "x")], children := [
      { tag := "begin", children := [
        { tag := "def", attributes := .ofList [("name", "y")] },
        { tag := "set", attributes := .ofList [("name", "y")], children := [
          { tag := "var", attributes := .ofList [("name", "x")] }] },
        { tag := "label", attributes := .ofList [("name", "again")] },
        { tag := "if", children := [
          { tag := "call", attributes := .ofList [("fun", "eq")], children := [
            { tag := "var", attributes := .ofList [("name", "y")] },
            { tag := "string", attributes := .ofList [("value", "raw")] }] },
          { tag := "begin", children := [
            { tag := "set", attributes := .ofList [("name", "y")], children := [
              { tag := "string", attributes := .ofList [("value", "settled")] }] },
            { tag := "goto", attributes := .ofList [("label", "again")] }] }] },
        { tag := "var", attributes := .ofList [("name", "y")] }] }] },
    { tag := "call", attributes := .ofList [("fun", "settle")], children := [
      { tag := "string", attributes := .ofList [("value", "raw")] }] }]

/-- The jump back in `settling` is taken up in every run. -/
theorem settling_jumps_resolve :
    echoing.HandsBack (fun _ _ => False) ∧ echoing.NeverMalformed ∧
    (∀ name v, (Interpreter.new {} ()).lookup? name = some v → ¬ v.IsFunction) ∧
    (∀ form ∈ settling.children, form.jumpsScoped []) ∧
    ∀ fuel,
      (∀ e it', (Interpreter.new {} ()).runProgram (run echoing fuel) settling = .failed e it' →
        ¬ e.IsUnresolved) ∧
      ∀ event ∈ (Interpreter.new {} ()).programTrace echoing fuel settling,
        ¬ event.CallJumps echoing := by
  have hfail : echoing.NeverMalformed := by
    intro f args s get e cause h
    cases h
  have hglobals : ∀ name v, (Interpreter.new {} ()).lookup? name = some v → ¬ v.IsFunction := by
    intro name v hlookup
    obtain ⟨f, rfl⟩ := Interpreter.lookup?_new hlookup
    exact fun h => h
  have hforms : ∀ form ∈ settling.children, form.jumpsScoped [] := by decide
  refine ⟨echoing_handsBack, hfail, hglobals, hforms, fun fuel => ?_⟩
  have hresolve := scoped_jumps_resolve echoing_handsBack hfail (fun v hv => absurd hv fun h => h)
    hglobals hforms fuel
  exact ⟨hresolve.1, hresolve.2.1⟩

def stray : Value := .function 1 "stray" [] (.goto "nowhere")

def pokable : Interpreter Unit :=
  ((Interpreter.new { prelude := false } ()).defineCell "x" .absent).register ⟨0, "poke", none⟩

theorem pokable_lookup? {name : Name} {v : Value} (h : pokable.lookup? name = some v) :
    ¬ v.IsFunction := by
  rw [pokable, Interpreter.lookup?_register] at h
  split at h
  · cases h
    exact fun h => h
  · by_cases hname : name = "x"
    · subst hname
      cases h
      exact fun h => h
    · simp only [Interpreter.lookup?, Interpreter.defineCell, Environment.bindCell,
        Environment.lookup?, Environment.slot?_bind_of_ne hname] at h
      cases h

def poking : Tree where
  tag := "program"
  children := [
    { tag := "call", attributes := .ofList [("fun", "poke")] },
    { tag := "call", attributes := .ofList [("fun", "x")] }]

def trusting : Tree where
  tag := "program"
  children := [
    { tag := "function", attributes := .ofList [("name", "trust"), ("args", "f")], children := [
      { tag := "call", children := [
        { tag := "call", children := [
          { tag := "var", attributes := .ofList [("name", "f")] }] }] }] }]

/-- What natives return is not all that matters. One that returns no function, but puts
`stray` into the cell it holds, makes a jump go unresolved; and so does one that is not
there while the program runs, and comes as an argument of a later call. -/
theorem natives_lead_astray :
    ((∀ name v, pokable.lookup? name = some v → ¬ v.IsFunction) ∧
      (∀ f, (writing stray).ReturnsArguments f) ∧ (writing stray).NeverMalformed ∧
      (∀ form ∈ poking.children, form.jumpsScoped []) ∧
      ∃ e it', pokable.runProgram (run (writing stray) 8) poking = .failed e it' ∧
        e.IsUnresolved) ∧
    (∀ name, (Interpreter.new { prelude := false } ()).lookup? name = none) ∧
      (∀ form ∈ trusting.children, form.jumpsScoped []) ∧
      ∃ it₁ e it₂, (Interpreter.new { prelude := false } ()).runProgram
          (run (answering stray) 8) trusting = .done .absent it₁ ∧
        it₁.call (answering stray) 8 "trust" [.native ⟨0, "lend", none⟩] = .failed e it₂ ∧
        e.IsUnresolved := by
  refine ⟨⟨fun name v => pokable_lookup?, writing_returnsArguments stray, ?_, by decide, ?_⟩,
    fun _ => rfl, by decide, ?_⟩
  · intro f args s get e cause h
    cases h
  · exact ⟨_, _, rfl, "nowhere", rfl⟩
  · exact ⟨_, _, _, rfl, rfl, "nowhere", rfl⟩

end Treewalk
