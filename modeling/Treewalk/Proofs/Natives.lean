import Treewalk.Native.Basic
import Treewalk.Proofs.Parts
import Treewalk.Proofs.Values

/-!
What a call of a native can do. The builtins give plain data, set no cell, and fail only
for the number or the kind of their arguments; what hosts give, and what they set, is
bounded by assumptions on the host.
-/
namespace Treewalk

variable {η : Type}

/-- The host gives a function, as an answer or as what a cell is set to, only if it was
given it, in the same call or in an earlier one; `held s v` says that a host in state `s`
has `v` from an earlier call. -/
structure Host.HandsBack (host : Host η) (held : η → Value → Prop) : Prop where
  returned {f : Native} {args : List Value} {s : η} {get : CellId → Value} {v : Value} :
    (host.call f args s get).answer = .ok v → v.IsFunction → v ∈ args ∨ held s v
  written {f : Native} {args : List Value} {s : η} {get : CellId → Value} {cell : CellId}
    {v : Value} :
    (cell, v) ∈ (host.call f args s get).writes → v.IsFunction → v ∈ args ∨ held s v
  kept {f : Native} {args : List Value} {s : η} {get : CellId → Value} {v : Value} :
    held (host.call f args s get).state v → v ∈ args ∨ held s v

/-- The native returns a function only if it is called with it. -/
def Host.ReturnsArguments (host : Host η) (f : Native) : Prop :=
  ∀ (args : List Value) (w : World η) (v : Value), (host.apply f args w).1 = .ok v →
    v.IsFunction → v ∈ args

/-- The cells that natives set are among `cells`. -/
def Host.SetsOnly (host : Host η) (cells : CellId → Prop) : Prop :=
  ∀ (f : Native) (args : List Value) (s : η) (get : CellId → Value) (write : CellId × Value),
    write ∈ (host.call f args s get).writes → cells write.1

/-- Natives hold no cell that they set. -/
def Host.SetsNoCells (host : Host η) : Prop := host.SetsOnly fun _ => False

/-- The host never fails as if a tree were malformed. -/
def Host.NeverMalformed (host : Host η) : Prop :=
  ∀ (f : Native) (args : List Value) (s : η) (get : CellId → Value) (e : Error)
    (cause : Malformed),
    (host.call f args s get).answer = .error e → e.kind ≠ .malformedTree cause

theorem exists_of_map_eq_ok {α β : Type} {x : Except Error α} {f : α → β} {b : β}
    (h : x.map f = .ok b) : ∃ a, x = .ok a ∧ f a = b := by
  cases x with
  | error e => cases h
  | ok a => exact ⟨a, rfl, Except.ok.inj h⟩

theorem eq_error_of_map {α β : Type} {x : Except Error α} {f : α → β} {e : Error}
    (h : x.map f = .error e) : x = .error e := by
  cases x with
  | error e' =>
    cases h
    rfl
  | ok a => cases h

namespace Builtin

theorem not_isFunction_of_result {b : Builtin} {args : List Value} {line : Option String}
    {v : Value} (h : b.result args = .ok (line, v)) : ¬ v.IsFunction := by
  intro hv
  cases b with
  | print =>
    obtain ⟨a, -, heq⟩ := exists_of_map_eq_ok h
    cases heq
    exact hv
  | eq | plus | minus | mul | less =>
    obtain ⟨⟨x, y⟩, -, heq⟩ := exists_of_map_eq_ok h
    cases heq
    exact hv

inductive Refusal (b : Builtin) (args : List Value) : Error → Prop
  | count {expected : Nat} (h : args.length ≠ expected) :
      Refusal b args (.arityMismatch b.name expected args.length)
  | kind {v : Value} (h : v ∈ args) (hv : v.typeName ≠ "number") :
      Refusal b args (.typeMismatch "number" v.typeName)

theorem refusal_of_one {b : Builtin} {args : List Value} {e : Error}
    (h : b.one args = .error e) : b.Refusal args e := by
  unfold one at h
  split at h
  · cases h
  · next hargs =>
    cases h
    refine .count fun hlength => ?_
    obtain ⟨v, rfl⟩ := List.length_eq_one_iff.1 hlength
    exact hargs v rfl

theorem refusal_of_two {b : Builtin} {args : List Value} {e : Error}
    (h : b.two args = .error e) : b.Refusal args e := by
  unfold two at h
  split at h
  · cases h
  · next hargs =>
    cases h
    refine .count fun hlength => ?_
    match args, hlength with
    | [v, w], _ => exact hargs v w rfl

theorem refusal_of_operand {b : Builtin} {args : List Value} {v : Value} (hv : v ∈ args)
    {e : Error} (h : operand v = .error e) : b.Refusal args e := by
  unfold operand at h
  cases v with
  | number x => cases h
  | _ =>
    cases h
    exact .kind hv (by simp [Value.typeName])

theorem refusal_of_numbers {b : Builtin} {args : List Value} {e : Error}
    (h : b.numbers args = .error e) : b.Refusal args e := by
  unfold numbers at h
  cases htwo : b.two args with
  | error e' =>
    rw [htwo] at h
    cases h
    exact refusal_of_two htwo
  | ok pair =>
    obtain ⟨v, w⟩ := pair
    have hargs : args = [v, w] := by
      unfold two at htwo
      split at htwo
      · cases htwo
        rfl
      · cases htwo
    rw [htwo] at h
    cases hv : operand v with
    | error e' =>
      simp only [bind, Except.bind, hv] at h
      cases h
      exact refusal_of_operand (by simp [hargs]) hv
    | ok x =>
      cases hw : operand w with
      | error e' =>
        simp only [bind, Except.bind, hv, hw] at h
        cases h
        exact refusal_of_operand (by simp [hargs]) hw
      | ok y =>
        simp only [bind, Except.bind, hv, hw] at h
        cases h

theorem refusal_of_result {b : Builtin} {args : List Value} {e : Error}
    (h : b.result args = .error e) : b.Refusal args e := by
  cases b with
  | print => exact refusal_of_one (eq_error_of_map h)
  | eq => exact refusal_of_two (eq_error_of_map h)
  | plus | minus | mul | less => exact refusal_of_numbers (eq_error_of_map h)

end Builtin

namespace Host

/-- What an application leaves of the world, and where its result comes from. -/
theorem apply_cases {host : Host η} {f : Native} {args : List Value} {w w' : World η}
    {r : Except Error Value} (h : host.apply f args w = (r, w')) :
    (∃ b, f.builtin? = some b ∧ w'.cells = w.cells ∧ w'.host = w.host ∧
      (∀ v, r = .ok v → ¬ v.IsFunction) ∧ ∀ e, r = .error e → b.Refusal args e) ∨
    (f.builtin? = none ∧ r = (host.call f args w.host w.cells.get).answer ∧
      w' = w.follow (host.call f args w.host w.cells.get)) := by
  unfold apply at h
  cases hb : f.builtin? with
  | none =>
    rw [hb] at h
    cases h
    exact .inr ⟨rfl, rfl, rfl⟩
  | some b =>
    rw [hb] at h
    cases h
    refine .inl ⟨b, rfl, rfl, rfl, ?_, ?_⟩
    · intro v hv
      split at hv
      · next hresult =>
        cases hv
        exact Builtin.not_isFunction_of_result hresult
      · next hresult =>
        cases hv
        exact Builtin.not_isFunction_of_result hresult
      · cases hv
    · intro e he
      split at he
      · cases he
      · cases he
      · next hresult =>
        cases he
        exact Builtin.refusal_of_result hresult

/-- A host that answers with plain data returns no function at all. -/
theorem returnsArguments_of_data {host : Host η} {f : Native}
    (h : ∀ args s get, ∃ v, (host.call f args s get).answer = .ok v ∧ ¬ v.IsFunction) :
    host.ReturnsArguments f := by
  intro args w v hanswer hfunction
  have happly : host.apply f args w = ((host.apply f args w).1, (host.apply f args w).2) := rfl
  rcases apply_cases happly with ⟨b, -, -, -, hvalue, -⟩ | ⟨-, hcall, -⟩
  · exact absurd hfunction (hvalue v hanswer)
  · obtain ⟨u, hu, hdata⟩ := h args w.host w.cells.get
    rw [hcall, hu] at hanswer
    cases hanswer
    exact absurd hfunction hdata

/-- Natives make no cells, and take none away. -/
theorem size_of_apply {host : Host η} {f : Native} {args : List Value} {w w' : World η}
    {r : Except Error Value} (h : host.apply f args w = (r, w')) :
    w'.cells.size = w.cells.size := by
  rcases apply_cases h with ⟨b, -, hcells, -⟩ | ⟨-, -, rfl⟩
  · rw [hcells]
  · exact Cells.size_setAll ..

/-- What is true of all data, and of all functions that a host that is called returns,
writes and holds then, is true after the application of a native. -/
theorem apply_carries {host : Host η} {held : η → Value → Prop} {value : Value → Prop}
    {inPlay : CellId → Prop} (hdata : ∀ v, ¬ v.IsFunction → value v) {f : Native}
    {args : List Value} {w w' : World η} {r : Except Error Value}
    (hw : w.cells.Carry value inPlay ∧ ∀ v, held w.host v → value v)
    (hreturned : ∀ v, (host.call f args w.host w.cells.get).answer = .ok v → v.IsFunction →
      value v)
    (hwritten : ∀ cell v, (cell, v) ∈ (host.call f args w.host w.cells.get).writes →
      v.IsFunction → value v)
    (hkept : ∀ v, held (host.call f args w.host w.cells.get).state v → value v)
    (h : host.apply f args w = (r, w')) :
    (w'.cells.Carry value inPlay ∧ ∀ v, held w'.host v → value v) ∧
      ∀ v, r = .ok v → value v := by
  rcases apply_cases h with ⟨b, -, hcells, hhost, hvalue, -⟩ | ⟨-, rfl, rfl⟩
  · exact ⟨⟨hcells ▸ hw.1, hhost ▸ hw.2⟩, fun v hv => hdata v (hvalue v hv)⟩
  · refine ⟨⟨hw.1.setAll ?_, hkept⟩, ?_⟩
    · intro write hwrite
      by_cases hfunction : write.2.IsFunction
      · exact hwritten write.1 write.2 hwrite hfunction
      · exact hdata write.2 hfunction
    · intro v hv
      by_cases hfunction : v.IsFunction
      · exact hreturned v hv hfunction
      · exact hdata v hfunction

/-- What is true of all data, of the arguments and of what the host holds, is true of the
result and of what the host holds then. -/
theorem HandsBack.apply_carries {host : Host η} {held : η → Value → Prop}
    (hback : host.HandsBack held) {value : Value → Prop} {inPlay : CellId → Prop}
    (hdata : ∀ v, ¬ v.IsFunction → value v) {f : Native} {args : List Value} {w w' : World η}
    {r : Except Error Value} (hargs : ∀ a ∈ args, value a)
    (hw : w.cells.Carry value inPlay ∧ ∀ v, held w.host v → value v)
    (h : host.apply f args w = (r, w')) :
    (w'.cells.Carry value inPlay ∧ ∀ v, held w'.host v → value v) ∧
      ∀ v, r = .ok v → value v := by
  have hfound : ∀ v, v ∈ args ∨ held w.host v → value v := by
    rintro v (hmem | hheld)
    · exact hargs v hmem
    · exact hw.2 v hheld
  exact Host.apply_carries hdata hw (fun v hv hfunction => hfound v (hback.returned hv hfunction))
    (fun cell v hv hfunction => hfound v (hback.written hv hfunction))
    (fun v hv => hfound v (hback.kept hv)) h

end Host

def echoing : Host Unit where
  call _ args s _ := { answer := .ok (args.headD .absent), state := s }

theorem echoing_setsNoCells : echoing.SetsNoCells :=
  fun _ _ _ _ _ hwrite => absurd hwrite List.not_mem_nil

theorem echoing_handsBack : echoing.HandsBack fun _ _ => False where
  returned := by
    intro f args s get v h hfunction
    cases h
    cases args with
    | nil => exact absurd hfunction fun h => h
    | cons v args => exact .inl List.mem_cons_self
  written h := absurd h List.not_mem_nil
  kept h := absurd h fun h => h

def answering (v : Value) : Host Unit where
  call _ _ s _ := { answer := .ok v, state := s }

/-- A host whose natives hold the first cell. They set it to `v`, and answer nothing. -/
def writing (v : Value) : Host Unit where
  call _ _ s _ := { answer := .ok .absent, state := s, writes := [(0, v)] }

theorem writing_returnsArguments (v : Value) (f : Native) : (writing v).ReturnsArguments f :=
  Host.returnsArguments_of_data fun _ _ _ => ⟨_, rfl, fun h => h⟩

def turning : Host Bool where
  call _ _ s _ := { answer := .ok (.bool s), state := true }

theorem turning_returnsArguments (f : Native) : turning.ReturnsArguments f :=
  Host.returnsArguments_of_data fun _ _ _ => ⟨_, rfl, fun h => h⟩

def Value.bodyPasses (test : Code → Bool) : Value → Bool
  | .function _ _ _ body => test body
  | _ => false

def peeking (test : Code → Bool) : Host Unit where
  call _ args s _ := { answer := .ok (.bool ((args.headD .absent).bodyPasses test)), state := s }

theorem peeking_returnsArguments (test : Code → Bool) (f : Native) :
    (peeking test).ReturnsArguments f :=
  Host.returnsArguments_of_data fun _ _ _ => ⟨_, rfl, fun h => h⟩

end Treewalk
