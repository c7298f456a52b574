import Mathlib.Data.List.DropRight
import Treewalk.Proofs.Lockstep
import Treewalk.Proofs.Printed

/-!
Output is write-only. Interpreters that differ in their printers alone give the same
answers to the same operations and stay alike, whether or not output is cleared on the
way; and each printer has what its sink makes of the lines printed, which a buffer keeps
since it was last cleared and standard output takes for good.
-/
namespace Treewalk

variable {η : Type} {link : Printer → Printer → Prop}

/-- A link between printers that lasts when a line is printed on both. -/
def Printer.Lasting (link : Printer → Printer → Prop) : Prop :=
  ∀ (line : String) (p p' : Printer), link p p' → link (p.println line) (p'.println line)

namespace Printer

def Echo (p p' : Printer) : Prop :=
  p.sink = .stdout ∧ p'.sink = .buffer ∧ p.pending = p'.held

theorem echo_lasting : Lasting Echo := by
  rintro line ⟨sink, held, pending⟩ ⟨sink', held', pending'⟩ ⟨hsink, hsink', htext⟩
  cases hsink
  cases hsink'
  cases htext
  exact ⟨rfl, rfl, rfl⟩

theorem Echo.clear_left {p p' : Printer} (h : p.Echo p') : p.clear.Echo p' := by
  obtain ⟨sink, held, pending⟩ := p
  cases h.1
  exact h

end Printer

/-- Worlds that differ in their printers alone, which are linked. -/
structure World.Linked (link : Printer → Printer → Prop) (w w' : World η) : Prop where
  cells : w.cells = w'.cells
  host : w.host = w'.host
  printer : link w.printer w'.printer

/-- A native answers alike in linked worlds, and what it prints it prints in both. -/
theorem World.Linked.apply (hlink : Printer.Lasting link) (host : Host η) (f : Native)
    (args : List Value) {w w' : World η} (h : w.Linked link w') :
    (host.apply f args w).1 = (host.apply f args w').1 ∧
      (host.apply f args w).2.Linked link (host.apply f args w').2 := by
  obtain ⟨hcells, hhost, hprinter⟩ := h
  simp only [Host.apply]
  cases f.builtin? with
  | none =>
    simp only [World.follow, hcells, hhost]
    exact ⟨trivial, rfl, rfl, hprinter⟩
  | some b =>
    simp only [Builtin.apply]
    split
    · next line v _ => exact ⟨rfl, hcells, hhost, hlink line _ _ hprinter⟩
    · exact ⟨rfl, hcells, hhost, hprinter⟩
    · exact ⟨rfl, hcells, hhost, hprinter⟩

def deaf (host : Host η) (hlink : Printer.Lasting link) : Lockstep host where
  fit _ := True
  env := Eq
  world := World.Linked link
  data _ := trivial
  read := by
    rintro name e _ w w' - rfl hw
    rw [hw.cells]
    exact ⟨rfl, fun v _ => Code.throughout_of_forall (fun _ => trivial) _⟩
  define := by
    rintro name ⟨e, ⟨cells, p, state⟩⟩ ⟨_, ⟨_, p', _⟩⟩ - rfl ⟨rfl, rfl, hprinter⟩
    exact ⟨rfl, rfl, rfl, hprinter⟩
  target := by
    rintro name n e _ - rfl
    exact Slot.sameKind_refl _
  store := by
    intro c c' v cell hw _
    exact ⟨congrArg (Cells.set · cell v) hw.cells, hw.host, hw.printer⟩
  enter := by
    rintro id name params b e _ args - rfl -
    rfl
  native := by
    intro f args w w' _ hw
    obtain ⟨hanswer, hworld⟩ := hw.apply hlink host f args
    exact ⟨hanswer, fun v _ => Code.throughout_of_forall (fun _ => trivial) _, hworld⟩

theorem Outcome.Rel.map {σ τ α β : Type} {R : σ → τ → Prop} {o : Outcome σ α}
    {o' : Outcome τ α} (h : o.Rel R o') (f : α → β) : (o.map f).Rel R (o'.map f) := by
  cases h with
  | done a hst => exact .done (f a) hst
  | failed e hst => exact .failed e hst
  | outOfFuel => exact .outOfFuel

namespace Interpreter

structure Linked (link : Printer → Printer → Prop) (it it' : Interpreter η) : Prop where
  globals : it.globals = it'.globals
  world : it.world.Linked link it'.world
  policy : it.policy = it'.policy
  nextId : it.nextId = it'.nextId

variable {host : Host η} {fuel : Nat} {it it' : Interpreter η}

theorem Linked.aligned (host : Host η) (hlink : Printer.Lasting link) (h : it.Linked link it') :
    (deaf host hlink).correspondence.Aligned it.policy it.policy it it' :=
  ⟨h.globals, h.world, h.nextId, rfl, h.policy.symm⟩

theorem linked_of_aligned {hlink : Printer.Lasting link} {policy : Policy}
    (h : (deaf host hlink).correspondence.Aligned policy policy it it') : it.Linked link it' :=
  ⟨h.globals, h.world, h.left.trans h.right.symm, h.nextId⟩

theorem Linked.lookup?_eq (h : it.Linked link it') (name : Name) :
    it.lookup? name = it'.lookup? name := by
  rw [lookup?, lookup?, h.globals, h.world.cells]

theorem Linked.scope_eq (h : it.Linked link it') : it.scope = it'.scope := by
  simp only [scope, h.lookup?_eq, h.policy]

theorem deaf_formPair (host : Host η) (hlink : Printer.Lasting link) (n : Code) :
    (deaf host hlink).correspondence.FormPair n n := by
  refine Lockstep.formPair (Code.throughout_of_forall (fun _ => trivial) n) ?_
  rintro id name params b e _ - rfl
  rfl

theorem deaf_accepts (host : Host η) (hlink : Printer.Lasting link) (policy : Policy)
    (tree : Tree) :
    (deaf host hlink).correspondence.Accepts policy policy tree tree where
  compile := by
    intro it it' hit
    rw [← (linked_of_aligned hit).scope_eq]
    cases Treewalk.compile it.scope tree with
    | error e => exact .error e
    | ok n => exact .ok (deaf_formPair host hlink n)
  tag _ _ _ := rfl

theorem Linked.define (h : it.Linked link it') (name : Name) (v : Value) :
    (it.define name v).Linked link (it'.define name v) :=
  ⟨congrArg (Environment.bindValue · name v) h.globals, h.world, h.policy, h.nextId⟩

theorem Linked.defineCell (h : it.Linked link it') (name : Name) (v : Value) :
    (it.defineCell name v).Linked link (it'.defineCell name v) := by
  obtain ⟨globals, ⟨cells, p, state⟩, policy, nextId⟩ := it
  obtain ⟨_, ⟨_, p', _⟩, _, _⟩ := it'
  obtain ⟨rfl, ⟨rfl, rfl, hprinter⟩, rfl, rfl⟩ := h
  exact ⟨rfl, ⟨rfl, rfl, hprinter⟩, rfl, rfl⟩

theorem settle_rel {R : Interpreter η → Interpreter η → Prop}
    {o o' : Outcome (Interpreter η) (Flow Value)} (h : o.Rel R o') :
    (settle o).Rel R (settle o') := by
  cases h with
  | done flow hst =>
    cases flow with
    | value v => exact .done v hst
    | jump label => exact .failed _ hst
  | failed e hst => exact .failed e hst
  | outOfFuel => exact .outOfFuel

theorem Linked.call (hlink : Printer.Lasting link) (h : it.Linked link it') (name : Name)
    (args : List Value) :
    (it.call host fuel name args).Rel (Linked link) (it'.call host fuel name args) := by
  unfold Interpreter.call
  rw [← h.lookup?_eq]
  cases it.lookup? name with
  | none => exact .failed _ h
  | some f =>
    have hall : ∀ v, (deaf host hlink).Sound v :=
      fun v => Code.throughout_of_forall (fun _ => trivial) _
    have hargs : ∀ a ∈ args, (deaf host hlink).Sound a := fun a _ => hall a
    have hcall := Lockstep.callValue_rel fuel h.globals (hall f) hargs h.world
    refine settle_rel (hcall.mapBoth ?_)
    intro w w' hw
    exact ⟨h.globals, hw, h.policy, h.nextId⟩

/-- Linked interpreters answer every operation but clearing in the same way, and stay linked. -/
theorem Linked.perform (host : Host η) (fuel : Nat) (hlink : Printer.Lasting link)
    (h : it.Linked link it') {operation : Operation} (hclear : operation.isClear = false) :
    (it.perform host fuel operation).Rel (Linked link) (it'.perform host fuel operation) := by
  have hstays : ∀ it₁ it₁' : Interpreter η,
      (deaf host hlink).correspondence.Aligned it.policy it.policy it₁ it₁' →
        it₁.Linked link it₁' := fun _ _ => linked_of_aligned
  cases operation with
  | program root =>
    have htrees : ∀ tree ∈ root.children,
        (deaf host hlink).correspondence.Accepts it.policy it.policy tree tree :=
      fun tree _ => deaf_accepts host hlink it.policy tree
    have hforms := Lockstep.runForms_rel fuel htrees 0 (h.aligned host hlink)
    exact (hforms.imp fun _ _ _ _ => hstays _ _).map _
  | compile tree =>
    simp only [Interpreter.perform, Interpreter.compile, ← h.scope_eq]
    cases Treewalk.compile it.scope tree with
    | error e => exact .failed e h
    | ok n =>
      simp only [Except.map, h.nextId]
      exact .done _ ⟨h.globals, h.world, h.policy, rfl⟩
  | form form =>
    have hform := Lockstep.runForm_rel fuel (deaf_formPair host hlink form.code)
      (h.aligned host hlink)
    exact (hform.imp fun _ _ _ _ => hstays _ _).map _
  | call name args => exact (h.call hlink name args).map _
  | register f => exact .done _ (h.define f.name _)
  | define name v => exact .done _ (h.define name v)
  | defineCell name v => exact .done _ (h.defineCell name v)
  | clearOutput => cases hclear

def unheard (it : Interpreter η) : Interpreter η :=
  { it with world := { it.world with printer := { sink := .silent } } }

theorem Linked.unheard_eq (h : it.Linked link it') : it.unheard = it'.unheard := by
  obtain ⟨globals, ⟨cells, p, state⟩, policy, nextId⟩ := it
  obtain ⟨_, ⟨_, p', _⟩, _, _⟩ := it'
  obtain ⟨rfl, ⟨rfl, rfl, -⟩, rfl, rfl⟩ := h
  rfl

/-- How the operations end, clearing left aside, and what they leave but for output. -/
def answers (host : Host η) (fuel : Nat) (operations : List Operation) (it : Interpreter η) :
    List (Outcome (Interpreter η) Answer) :=
  ((it.history host fuel operations).filter fun r => !r.operation.isClear).map fun r =>
    r.outcome.mapState unheard

def neverClearing (operations : List Operation) : List Operation :=
  operations.filter fun operation => !operation.isClear

/-- Linked interpreters stay alike if one of them skips the clearing of output. -/
theorem Linked.runs (host : Host η) (fuel : Nat) (hlink : Printer.Lasting link)
    (hclear : ∀ p p', link p p' → link p.clear p') (h : it.Linked link it')
    (operations : List Operation) :
    it.answers host fuel operations = it'.answers host fuel (neverClearing operations) ∧
      Option.Rel (Linked link) (it.after host fuel operations)
        (it'.after host fuel (neverClearing operations)) := by
  induction operations generalizing it it' with
  | nil => exact ⟨rfl, .some h⟩
  | cons operation operations ih =>
    cases hop : operation.isClear with
    | true =>
      obtain rfl := Operation.eq_of_isClear hop
      have hcleared : it.clearOutput.Linked link it' :=
        ⟨h.globals, ⟨h.world.cells, h.world.host, hclear _ _ h.world.printer⟩, h.policy, h.nextId⟩
      exact ih hcleared
    | false =>
      have hrel := h.perform host fuel hlink hop
      have hsame : (it.perform host fuel operation).mapState unheard =
          (it'.perform host fuel operation).mapState unheard :=
        (hrel.mapBoth fun _ _ hst => hst.unheard_eq).eq
      have hstate := hrel.state?
      simp only [answers, history, after, neverClearing, List.filter_cons, hop, Bool.not_false,
        if_true, List.map_cons, hsame]
      generalize (it.perform host fuel operation).state? = r at hstate
      generalize (it'.perform host fuel operation).state? = r' at hstate
      cases hstate with
      | some hst =>
        obtain ⟨hanswers, hafter⟩ := ih hst
        exact ⟨congrArg _ hanswers, hafter⟩
      | none => exact ⟨rfl, .none⟩

def printingTo (sink : Sink) (conf : Configuration) (natives : List Native) (state : η) :
    Interpreter η :=
  build { conf with sink } natives state

theorem printingTo_linked (conf : Configuration) (natives : List Native) (state : η)
    {sink sink' : Sink} (h : link { sink } { sink := sink' }) :
    (printingTo sink conf natives state).Linked link (printingTo sink' conf natives state) := by
  have hregister : ∀ (natives : List Native) {it it' : Interpreter η}, it.Linked link it' →
      (natives.foldl register it).Linked link (natives.foldl register it') := by
    intro natives
    induction natives with
    | nil => exact fun h => h
    | cons f natives ih => exact fun h => ih (h.define f.name (.native f))
  refine hregister natives ?_
  unfold new
  split
  · exact hregister _ ⟨rfl, ⟨rfl, rfl, h⟩, rfl, rfl⟩
  · exact ⟨rfl, ⟨rfl, rfl, h⟩, rfl, rfl⟩

end Interpreter

section Replay

variable (host : Host η) (fuel : Nat)

def Record.lines (r : Record η) : List String := r.before.linesOf host fuel r.operation

def Record.replay (printer : Printer) (r : Record η) : Printer :=
  if r.operation.isClear then printer.clear else printer.printAll (r.lines host fuel)

/-- The lines printed since output was last cleared. -/
def linesHeld (records : List (Record η)) : List String :=
  (records.rtakeWhile fun r => !r.operation.isClear).flatMap (Record.lines host fuel)

variable {host fuel}

/-- The printer after some operations has what they did to it, one after the other. -/
theorem Interpreter.printer_of_after {operations : List Operation} {it it' : Interpreter η}
    (h : it.after host fuel operations = some it') :
    it'.world.printer =
      (it.history host fuel operations).foldl (Record.replay host fuel) it.world.printer := by
  induction operations generalizing it with
  | nil =>
    cases h
    rfl
  | cons operation operations ih =>
    obtain ⟨it₁, hfirst, hrest⟩ := Option.bind_eq_some_iff.1 h
    have hprinter : it₁.world.printer = Record.replay host fuel it.world.printer
        ⟨it, operation, it.perform host fuel operation⟩ := by
      cases hop : operation.isClear with
      | true =>
        obtain rfl := Operation.eq_of_isClear hop
        cases hfirst
        rfl
      | false =>
        simp only [Record.replay, hop]
        exact perform_prints hop hfirst
    rw [ih hrest, hprinter]
    simp only [history, hfirst, List.foldl_cons]

@[simp] theorem Record.sink_replay (p : Printer) (r : Record η) :
    (r.replay host fuel p).sink = p.sink := by
  unfold Record.replay
  split <;> simp

theorem Record.sink_replayAll (records : List (Record η)) (p : Printer) :
    (records.foldl (Record.replay host fuel) p).sink = p.sink := by
  induction records generalizing p with
  | nil => rfl
  | cons r records ih => simp [ih]

/-- A buffer that was empty at first holds what was printed since it was last cleared. -/
theorem Record.held_replayAll (records : List (Record η)) {p : Printer} (hsink : p.sink = .buffer)
    (hheld : p.held = "") :
    (records.foldl (Record.replay host fuel) p).held =
      transcript (linesHeld host fuel records) := by
  induction records using List.reverseRecOn with
  | nil => simpa [transcript, linesHeld] using hheld
  | append_singleton records r ih =>
    have hbuffer : (records.foldl (Record.replay host fuel) p).sink = .buffer :=
      (sink_replayAll records p).trans hsink
    rw [List.foldl_append, linesHeld, List.rtakeWhile_concat]
    cases hclear : r.operation.isClear with
    | true => simp [Record.replay, hclear, Printer.clear, hbuffer, transcript]
    | false =>
      simp only [List.foldl_cons, List.foldl_nil, Record.replay, hclear, Bool.not_false, if_true,
        List.flatMap_append, transcript_append, Bool.false_eq_true, if_false]
      rw [Printer.held_printAll _ hbuffer, ih]
      simp [linesHeld]

end Replay

namespace Interpreter

variable {host : Host η} {fuel : Nat} {conf : Configuration} {natives : List Native} {state : η}

theorem printer_printingTo (sink : Sink) :
    (printingTo sink conf natives state).world.printer = { sink } := by
  have hlinked : (printingTo sink conf natives state).Linked (fun p _ => p = { sink })
      (printingTo sink conf natives state) := printingTo_linked conf natives state rfl
  exact hlinked.world.printer

/-- Neither the sink nor the clearing of output matters for anything but output. -/
theorem unheard_of_skipping (sink sink' : Sink) (operations : List Operation) :
    (printingTo sink conf natives state).answers host fuel operations =
        (printingTo sink' conf natives state).answers host fuel (neverClearing operations) ∧
      ((printingTo sink conf natives state).after host fuel operations).map unheard =
        ((printingTo sink' conf natives state).after host fuel
          (neverClearing operations)).map unheard := by
  have hlinked : (printingTo sink conf natives state).Linked (fun _ _ => True)
      (printingTo sink' conf natives state) := printingTo_linked conf natives state trivial
  obtain ⟨hanswers, hafter⟩ := hlinked.runs host fuel (fun _ _ _ _ => trivial)
    (fun _ _ _ => trivial) operations
  refine ⟨hanswers, ?_⟩
  generalize after host fuel operations _ = r at hafter
  generalize after host fuel (neverClearing operations) _ = r' at hafter
  cases hafter with
  | some h => exact congrArg some h.unheard_eq
  | none => rfl

/-- What can be read of the output. -/
theorem output_of_after {sink : Sink} {operations : List Operation} {it : Interpreter η}
    (h : (printingTo sink conf natives state).after host fuel operations = some it) :
    it.output =
      if sink = .buffer then
        transcript (linesHeld host fuel
          ((printingTo sink conf natives state).history host fuel operations))
      else "" := by
  have hprinter := printer_of_after h
  rw [printer_printingTo] at hprinter
  have hsink : it.world.printer.sink = sink := by
    rw [hprinter]
    exact Record.sink_replayAll _ _
  cases sink with
  | buffer =>
    simp only [output, Printer.output, hsink]
    rw [hprinter]
    exact Record.held_replayAll _ rfl rfl
  | stdout => simp [output, Printer.output, hsink]
  | silent => simp [output, Printer.output, hsink]

/-- Standard output has been given what a buffer that is never cleared holds. -/
theorem pending_of_after {operations : List Operation} {it : Interpreter η}
    (h : (printingTo .stdout conf natives state).after host fuel operations = some it) :
    ∃ it', (printingTo .buffer conf natives state).after host fuel (neverClearing operations) =
        some it' ∧ it.world.printer.pending = it'.output := by
  have hlinked : (printingTo .stdout conf natives state).Linked Printer.Echo
      (printingTo .buffer conf natives state) :=
    printingTo_linked conf natives state ⟨rfl, rfl, rfl⟩
  obtain ⟨-, hafter⟩ := hlinked.runs host fuel Printer.echo_lasting
    (fun _ _ => Printer.Echo.clear_left) operations
  rw [h] at hafter
  generalize after host fuel (neverClearing operations) _ = r at hafter
  cases hafter with
  | some hit =>
    obtain ⟨-, hsink, htext⟩ := hit.world.printer
    refine ⟨_, rfl, ?_⟩
    simp only [output, Printer.output, hsink]
    exact htext

end Interpreter

open Interpreter in
/-- Output is write-only. Take interpreters that are built alike but for their sinks, and
operations on them that differ in the clearing of output at most. All other operations end
in the same way, with the same answer or error, and leave the same globals, the same
cells and the same state of the host. What can be read of the output is empty if the sink
is not a buffer, and a buffer holds a line for each call of `print` that returned since it
was last cleared, in their order, also from operations that failed. Standard output has in
all been given what a buffer would hold if it were never cleared. -/
theorem output_is_write_only (host : Host η) (fuel : Nat) (conf : Configuration)
    (natives : List Native) (state : η) :
    (∀ (sink sink' : Sink) (operations operations' : List Operation),
      neverClearing operations = neverClearing operations' →
      (printingTo sink conf natives state).answers host fuel operations =
          (printingTo sink' conf natives state).answers host fuel operations' ∧
        ((printingTo sink conf natives state).after host fuel operations).map unheard =
          ((printingTo sink' conf natives state).after host fuel operations').map unheard) ∧
    (∀ (sink : Sink) (operations : List Operation) (it : Interpreter η),
      (printingTo sink conf natives state).after host fuel operations = some it →
      it.output =
        if sink = .buffer then
          transcript (linesHeld host fuel
            ((printingTo sink conf natives state).history host fuel operations))
        else "") ∧
    ∀ (operations : List Operation) (it : Interpreter η),
      (printingTo .stdout conf natives state).after host fuel operations = some it →
      ∃ it', (printingTo .buffer conf natives state).after host fuel (neverClearing operations) =
          some it' ∧ it.world.printer.pending = it'.output := by
  refine ⟨?_, ?_, ?_⟩
  · intro sink sink' operations operations' hsame
    obtain ⟨hanswers, hafter⟩ := unheard_of_skipping sink .silent operations
    obtain ⟨hanswers', hafter'⟩ := unheard_of_skipping sink' .silent operations'
    rw [hanswers, hafter, hanswers', hafter', hsame]
    exact ⟨rfl, rfl⟩
  · intro sink operations it hafter
    exact output_of_after hafter
  · intro operations it hafter
    exact pending_of_after hafter

def faltering : Value :=
  .function 6 "falter" ["x"] (.block
    [.call (.const (.native ⟨0, "print", some .print⟩)) [.var "x"], .var "missing"])

/-- Printing before and after output is cleared, the second time in a call that fails, and
a call of `print` that is refused. -/
def faltered : List Operation :=
  [.define "falter" faltering, .call "print" [.text "one"], .clearOutput,
    .call "falter" [.text "two"], .call "print" []]

/-- The buffer has the second line, standard output both. -/
theorem faltered_is_write_only :
    (Interpreter.printingTo .silent {} [] ()).answers echoing 8 faltered =
      (Interpreter.printingTo .buffer {} [] ()).answers echoing 8
        (Interpreter.neverClearing faltered) ∧
    (∃ it, (Interpreter.printingTo .buffer {} [] ()).after echoing 8 faltered = some it ∧
      it.output = "two\n") ∧
    ∃ it it', (Interpreter.printingTo .stdout {} [] ()).after echoing 8 faltered = some it ∧
      (Interpreter.printingTo .buffer {} [] ()).after echoing 8
        (Interpreter.neverClearing faltered) = some it' ∧
      it.world.printer.pending = it'.output ∧ it'.output = "one\ntwo\n" := by
  obtain ⟨hanswers, houtput, hpending⟩ := output_is_write_only echoing 8 {} [] ()
  refine ⟨(hanswers .silent .buffer faltered (Interpreter.neverClearing faltered) rfl).1, ?_, ?_⟩
  · obtain ⟨it, hit⟩ : ∃ it, (Interpreter.printingTo .buffer {} [] ()).after echoing 8 faltered =
        some it := ⟨_, rfl⟩
    have hlines : linesHeld echoing 8
        ((Interpreter.printingTo .buffer {} [] ()).history echoing 8 faltered) = ["two"] := rfl
    refine ⟨it, hit, ?_⟩
    rw [houtput .buffer faltered it hit, hlines]
    rfl
  · obtain ⟨it, hit⟩ : ∃ it, (Interpreter.printingTo .stdout {} [] ()).after echoing 8 faltered =
        some it := ⟨_, rfl⟩
    have hlines : linesHeld echoing 8 ((Interpreter.printingTo .buffer {} [] ()).history echoing 8
        (Interpreter.neverClearing faltered)) = ["one", "two"] := rfl
    obtain ⟨it', hit', htext⟩ := hpending faltered it hit
    refine ⟨it, it', hit, hit', htext, ?_⟩
    rw [houtput .buffer (Interpreter.neverClearing faltered) it' hit', hlines]
    rfl

end Treewalk
