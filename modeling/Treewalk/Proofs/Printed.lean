import Treewalk.Proofs.Natives
import Treewalk.Proofs.Operations

/-!
What a run prints. The only thing that prints is a call of `print` that does not fail, and
it prints the text of its argument as a line. Main statement: however code, a program or
a call by name ends, it has printed a line for each such call among its points, in
their order, and nothing else.
-/
namespace Treewalk

variable {η α β : Type}

def transcript (lines : List String) : String := String.join (lines.map (· ++ "\n"))

theorem transcript_append (lines lines' : List String) :
    transcript (lines ++ lines') = transcript lines ++ transcript lines' := by
  simp [transcript]

namespace Printer

def printAll (lines : List String) (printer : Printer) : Printer :=
  lines.foldl (fun printer line => printer.println line) printer

@[simp] theorem printAll_nil (printer : Printer) : printer.printAll [] = printer := rfl

@[simp] theorem printAll_append (lines lines' : List String) (printer : Printer) :
    printer.printAll (lines ++ lines') = (printer.printAll lines).printAll lines' :=
  List.foldl_append

@[simp] theorem sink_printAll (lines : List String) (p : Printer) :
    (p.printAll lines).sink = p.sink := by
  induction lines generalizing p with
  | nil => rfl
  | cons line lines ih => exact (ih (p.println line)).trans (sink_println line p)

@[simp] theorem sink_clear (p : Printer) : p.clear.sink = p.sink := by
  obtain ⟨sink, held, pending⟩ := p
  cases sink <;> rfl

/-- A buffer holds on to the lines. -/
theorem held_printAll (lines : List String) {p : Printer} (h : p.sink = .buffer) :
    (p.printAll lines).held = p.held ++ transcript lines := by
  induction lines generalizing p with
  | nil => simp [transcript]
  | cons line lines ih =>
    obtain ⟨sink, held, pending⟩ := p
    obtain rfl : sink = .buffer := h
    have hprintln : (println line ⟨.buffer, held, pending⟩).held = held ++ (line ++ "\n") := by
      simp [println, ← String.toList_inj]
    have hrest := ih (p := println line ⟨.buffer, held, pending⟩) rfl
    rw [hprintln] at hrest
    simp only [transcript, List.map_cons, String.join_cons] at hrest ⊢
    rw [← String.append_assoc]
    exact hrest

end Printer

/-- The line that a point prints: a call of `print` that returns prints its argument. -/
def Event.line? (host : Host η) : Event (Config η) → Option String
  | .call _ (.native f) args c =>
    match f.builtin?, (host.apply f args c.world).1 with
    | some .print, .ok _ => args.head?.map Value.display
    | _, _ => none
  | _ => none

def lines (host : Host η) (events : List (Event (Config η))) : List String :=
  events.filterMap (Event.line? host)

@[simp] theorem lines_nil (host : Host η) : lines host [] = [] := rfl

@[simp] theorem lines_append (host : Host η) (events events' : List (Event (Config η))) :
    lines host (events ++ events') = lines host events ++ lines host events' :=
  List.filterMap_append

/-- A builtin other than `print` leaves the printer alone. -/
theorem Builtin.printer_of_ne_print {b : Builtin} (h : b ≠ .print) (args : List Value)
    (printer : Printer) : (b.apply args printer).2 = printer := by
  have hresult : ∀ line v, b.result args ≠ .ok (some line, v) := by
    intro line v heq
    cases b with
    | print => exact h rfl
    | _ =>
      obtain ⟨_, -, hpair⟩ := exists_of_map_eq_ok heq
      cases hpair
  unfold Builtin.apply
  split
  · next line v heq => exact absurd heq (hresult line v)
  · rfl
  · rfl

/-- `print` prints the text of its argument, or fails. -/
theorem Builtin.print_apply (args : List Value) (printer : Printer) :
    (∃ v, args = [v] ∧
      Builtin.print.apply args printer = (.ok .absent, printer.println v.display)) ∨
    ∃ e, Builtin.print.apply args printer = (.error e, printer) := by
  rcases args with _ | ⟨v, _ | ⟨w, rest⟩⟩
  · exact .inr ⟨_, rfl⟩
  · exact .inl ⟨v, rfl, rfl⟩
  · exact .inr ⟨_, rfl⟩

/-- A call of a native prints the line of its point. -/
theorem Host.printer_apply (host : Host η) (fuel : Nat) (f : Native) (args : List Value)
    (c : Config η) : (host.apply f args c.world).2.printer =
      c.world.printer.printAll (lines host [.call fuel (.native f) args c]) := by
  rcases hb : f.builtin? with _ | b
  · simp [lines, Event.line?, Host.apply, hb, World.follow]
  · by_cases hprint : b = .print
    · subst hprint
      rcases Builtin.print_apply args c.world.printer with ⟨v, rfl, happly⟩ | ⟨e, happly⟩
      · simp [lines, Event.line?, Host.apply, hb, happly, Printer.printAll]
      · simp [lines, Event.line?, Host.apply, hb, happly]
    · have hline : lines host [.call fuel (.native f) args c] = [] := by
        simp [lines, Event.line?, hb, hprint]
      rw [hline, Printer.printAll_nil]
      simp only [Host.apply, hb, Builtin.printer_of_ne_print hprint]

section Prints

variable {host : Host η}

/-- However it ends, the computation has printed the lines of the points. -/
def Outcome.Prints (host : Host η) (printer : Printer) (events : List (Event (Config η)))
    (o : Outcome (Config η) (Flow α)) : Prop :=
  o.Leaves fun c => c.world.printer = printer.printAll (lines host events)

theorem Outcome.Prints.onValue {printer : Printer} {events : List (Event (Config η))}
    {o : Outcome (Config η) (Flow α)} {k : α → Config η → Outcome (Config η) (Flow β)}
    {points : α → Config η → List (Event (Config η))} (ho : o.Prints host printer events)
    (hk : ∀ a c, (k a c).Prints host c.world.printer (points a c)) :
    (o.onValue k).Prints host printer (events ++ o.pointsAfter points) := by
  rcases o with ⟨a | label, c⟩ | ⟨e, c⟩ | _
  · refine (hk a c).imp ?_
    intro c' hc'
    rw [hc', ho.2]
    simp [Outcome.pointsAfter]
  · simp only [Outcome.pointsAfter, List.append_nil]
    exact ho
  · simp only [Outcome.pointsAfter, List.append_nil]
    exact ho
  · trivial

def Runner.Prints (host : Host η) (runner : Runner (Config η))
    (points : Code → Config η → List (Event (Config η))) : Prop :=
  ∀ (n : Code) (c : Config η), (runner n c).Prints host c.world.printer (points n c)

variable {runner : Runner (Config η)} {points : Code → Config η → List (Event (Config η))}

theorem runBlock_prints (hr : runner.Prints host points) (children : List Code) (fuel : Nat)
    (rest : List Code) (last : Value) (c : Config η) :
    (runBlock runner children fuel rest last c).Prints host c.world.printer
      (Machine.blockPoints runner points children fuel rest c) := by
  induction fuel generalizing rest last c with
  | zero => trivial
  | succ fuel ih =>
    cases rest with
    | nil => exact ⟨trivial, rfl⟩
    | cons child rest =>
      have hchild := hr child c
      -- What is left of the block prints on after what the child printed.
      have hgoOn : ∀ (c' : Config η) (rest' : List Code) (last' : Value),
          c'.world.printer = c.world.printer.printAll (lines host (points child c)) →
          (runBlock runner children fuel rest' last' c').Prints host c.world.printer
            (points child c ++ Machine.blockPoints runner points children fuel rest' c') := by
        intro c' rest' last' hc'
        refine (ih rest' last' c').imp ?_
        intro c'' hc''
        rw [hc'', hc']
        simp
      simp only [runBlock, Machine.blockPoints]
      rcases ho : runner child c with ⟨v | label, c'⟩ | ⟨e, c'⟩ | _ <;> rw [ho] at hchild
      · exact hgoOn c' rest v hchild.2
      · dsimp only
        cases Block.position? children label with
        | some i => exact hgoOn c' (children.drop i) last hchild.2
        | none => simpa using hchild
      · simpa using hchild
      · trivial

theorem runArgs_prints (hr : runner.Prints host points) (args : List Code) (taken : List Value)
    (c : Config η) :
    (runArgs runner args taken c).Prints host c.world.printer
      (Machine.argPoints runner points args c) := by
  induction args generalizing taken c with
  | nil => exact ⟨trivial, rfl⟩
  | cons arg args ih => exact (hr arg c).onValue fun v c' => ih (v :: taken) c'

theorem callValue_prints (hr : runner.Prints host points) (fuel : Nat) (f : Value)
    (args : List Value) (c : Config η) :
    (callValue host runner c.env f args c.world).Leaves fun w =>
      w.printer = c.world.printer.printAll
        (lines host ((copying host).callPoints fuel points f args c)) := by
  cases f with
  | native f =>
    have hprinter := host.printer_apply fuel f args c
    simp only [callValue]
    split <;>
    · next happly =>
      rw [happly] at hprinter
      exact ⟨trivial, hprinter⟩
  | function id name params body =>
    simp only [callValue, Machine.callPoints]
    split
    · have hbody := hr body ⟨c.env.bindAll params args, c.world⟩
      exact Outcome.Leaves.mapError (hbody.mapState fun _ h => h) _
    · exact ⟨trivial, rfl⟩
  | _ => exact ⟨trivial, rfl⟩

theorem step_prints {fuel : Nat} (hr : (run host fuel).Prints host points) :
    (step host (run host fuel) fuel).Prints host ((copying host).partPoints fuel points) := by
  intro n c
  cases n with
  | var name =>
    simp only [step]
    cases c.get name with
    | error e => exact ⟨trivial, rfl⟩
    | ok v => exact ⟨trivial, rfl⟩
  | assign name expr =>
    rcases hslot : c.env.slot? name with _ | v | cell
    · simp only [step, Machine.partPoints, copying, hslot]
      exact ⟨trivial, rfl⟩
    · simp only [step, Machine.partPoints, copying, hslot]
      exact ⟨trivial, rfl⟩
    · simp only [step, Machine.partPoints, copying, hslot]
      exact Outcome.Leaves.onValue (hr expr c) fun v c' hc' => ⟨trivial, hc'⟩
  | block children => exact runBlock_prints hr children fuel children .absent c
  | when test body =>
    refine (hr test c).onValue fun v c' => ?_
    split
    · exact hr body c'
    · exact ⟨trivial, rfl⟩
  | choose test yes no =>
    refine (hr test c).onValue fun v c' => ?_
    split
    · exact hr yes c'
    · exact hr no c'
  | call callee args =>
    refine (hr callee c).onValue fun f c' => ?_
    refine (runArgs_prints hr args [] c').onValue fun vs c'' => ?_
    exact (callValue_prints hr fuel f vs c'').mapState fun _ h => h
  | _ => exact ⟨trivial, rfl⟩

/-- A run prints the lines of its points. -/
theorem run_prints (host : Host η) (fuel : Nat) :
    (run host fuel).Prints host ((copying host).trace fuel) := by
  induction fuel with
  | zero =>
    intro n c
    trivial
  | succ fuel ih => exact fun n c => step_prints ih n c

end Prints

namespace Interpreter

variable {host : Host η} {fuel : Nat} {it it' : Interpreter η}

def linesOf (host : Host η) (fuel : Nat) (it : Interpreter η) (operation : Operation) :
    List String :=
  lines host (it.points host (copying host) id fuel operation)

theorem runForm_prints {form : Form}
    (h : (runForm (run host fuel) form it).state? = some it') :
    it'.world.printer = it.world.printer.printAll (it.linesOf host fuel (.form form)) := by
  simp only [linesOf, points]
  split
  · next name params body hcode =>
    simp only [runForm, hcode] at h
    cases h
    rfl
  · next code hcode =>
    rw [state?_runForm hcode] at h
    obtain ⟨c, hc, rfl⟩ := Option.map_eq_some_iff.1 h
    have hprints := run_prints host fuel form.code it.config
    have hleft := Outcome.Obeys.of_state? hprints hc
    exact hleft

theorem runForms_prints {index : Nat} {trees : List Tree} {result : Value}
    (h : (runForms (run host fuel) index trees result it).state? = some it') :
    it'.world.printer = it.world.printer.printAll
      (lines host (formPoints (run host fuel) ((copying host).trace fuel) trees it)) := by
  induction trees generalizing index result it with
  | nil =>
    cases h
    rfl
  | cons tree trees ih =>
    simp only [runForms, runTree] at h
    unfold formPoints
    rcases hcompile : it.compile tree with e | ⟨form, it₁⟩ <;> rw [hcompile] at h
    · cases h
      rfl
    · have hprinter : it₁.world.printer = it.world.printer := by rw [eq_of_compile hcompile]
      have hfirst : ∀ it₂, (runForm (run host fuel) form it₁).state? = some it₂ →
          it₂.world.printer =
            it.world.printer.printAll (it₁.linesOf host fuel (.form form)) :=
        fun it₂ h₂ => hprinter ▸ runForm_prints h₂
      simp only [lines_append, Printer.printAll_append]
      rcases hrun : runForm (run host fuel) form it₁ with ⟨r, it₂⟩ | ⟨e, it₂⟩ | _ <;>
        simp only [hrun] at h hfirst
      · rw [ih h, hfirst it₂ rfl]
        rfl
      · cases h
        exact hfirst _ rfl
      · cases h

theorem call_prints {name : Name} {args : List Value}
    (h : (it.call host fuel name args).state? = some it') :
    it'.world.printer = it.world.printer.printAll (it.linesOf host fuel (.call name args)) := by
  unfold call at h
  simp only [linesOf, points]
  cases hlookup : it.lookup? name with
  | none =>
    rw [hlookup] at h
    cases h
    rfl
  | some f =>
    rw [hlookup] at h
    dsimp only at h
    rw [state?_settle, Outcome.state?_mapState] at h
    obtain ⟨w, hw, rfl⟩ := Option.map_eq_some_iff.1 h
    have hprints := callValue_prints (run_prints host fuel) fuel f args it.config
    have hleft := Outcome.Obeys.of_state? hprints hw
    exact hleft

/-- An operation other than clearing prints the lines of its points, however it ends. -/
theorem perform_prints {operation : Operation} (hclear : operation.isClear = false)
    (h : (it.perform host fuel operation).state? = some it') :
    it'.world.printer = it.world.printer.printAll (it.linesOf host fuel operation) := by
  cases operation with
  | program root =>
    simp only [perform, Outcome.state?_map] at h
    exact runForms_prints h
  | compile tree =>
    simp only [perform] at h
    split at h
    · next form it₁ hcompile =>
      cases h
      rw [eq_of_compile hcompile]
      rfl
    · cases h
      rfl
  | form form =>
    simp only [perform, Outcome.state?_map] at h
    exact runForm_prints h
  | call name args =>
    simp only [perform, Outcome.state?_map] at h
    exact call_prints h
  | clearOutput => cases hclear
  | _ =>
    cases h
    rfl

end Interpreter

end Treewalk
