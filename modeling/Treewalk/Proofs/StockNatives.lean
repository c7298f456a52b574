import Treewalk.Native.Stock
import Treewalk.Proofs.Programs
import Treewalk.Proofs.Related

/-!
The stock natives as a host. They hand back a function only if they were given it, as
an argument or as the constant to answer with, and they cannot tell arguments apart
that differ in the bodies of functions.
-/
namespace Treewalk

variable {value : Value → Value → Prop} {code : Code → Code → Prop}

inductive Behaviour.Rel (value : Value → Value → Prop) : Behaviour → Behaviour → Prop
  | const {v w : Value} (h : value v w) : Rel value (.const v) (.const w)
  | other {b : Behaviour} (h : ∀ v, b ≠ .const v) : Rel value b b

theorem Behaviour.Rel.refl (h : ∀ v, value v v) (b : Behaviour) : b.Rel value b := by
  cases b with
  | const v => exact .const (h v)
  | _ => exact .other fun _ heq => by cases heq

theorem Behaviour.Rel.answer (hpaired : ∀ v w, value v w → v.Paired code w)
    (hdata : ∀ v, ¬ v.IsFunction → value v v) {b b' : Behaviour} (h : b.Rel value b')
    {args args' : List Value} (hargs : List.Forall₂ value args args') :
    SameAnswer value (b.answer args).1 (b'.answer args').1 ∧
      (b.answer args).2.Rel value (b'.answer args').2 := by
  have hplain : ∀ v : Value, ¬ v.IsFunction → SameAnswer value (.ok v) (.ok v) :=
    fun v hv => .ok (hdata v hv)
  cases h with
  | const h => exact ⟨.ok h, .const h⟩
  | other hother =>
    cases b with
    | const v => exact absurd rfl (hother v)
    | count =>
      simp only [Behaviour.answer, hargs.length_eq]
      exact ⟨hplain _ fun h => h, .other hother⟩
    | join =>
      have hdisplay : args.map Value.display = args'.map Value.display := by
        induction hargs with
        | nil => rfl
        | cons hv hvs ih =>
          rw [List.map_cons, List.map_cons, Builtin.display_eq (hpaired _ _ hv), ih]
      simp only [Behaviour.answer, hdisplay]
      exact ⟨hplain _ fun h => h, .other hother⟩
    | echo =>
      refine ⟨.ok ?_, .other hother⟩
      cases hargs with
      | nil => exact hdata _ fun h => h
      | cons hv hvs => exact hv
    | typeName | truthy =>
      refine ⟨?_, .other hother⟩
      cases hargs with
      | nil => exact hplain _ fun h => h
      | cons hv hvs =>
        cases hpaired _ _ hv with
        | data h => exact hplain _ fun h => h
        | function id name params h => exact hplain _ fun h => h
    | tick calls => exact ⟨hplain _ fun h => h, .other fun _ heq => by cases heq⟩
    | fail e => exact ⟨.error e, .other hother⟩

namespace Stock

def Rel (value : Value → Value → Prop) : Stock → Stock → Prop :=
  List.Forall₂ fun entry entry' => entry.1 = entry'.1 ∧ entry.2.Rel value entry'.2

theorem Rel.refl (h : ∀ v, value v v) (stock : Stock) : stock.Rel value stock :=
  List.forall₂_same.2 fun entry _ => ⟨rfl, .refl h entry.2⟩

theorem Rel.lookup {stock stock' : Stock} (h : stock.Rel value stock') (id : Nat) :
    Option.Rel (Behaviour.Rel value) (stock.lookup id) (stock'.lookup id) := by
  induction h with
  | nil => exact .none
  | @cons entry entry' stock stock' hentry hrest ih =>
    obtain ⟨i, b⟩ := entry
    obtain ⟨i', b'⟩ := entry'
    obtain ⟨rfl, hb⟩ := hentry
    simp only [List.lookup_cons]
    cases id == i with
    | true => exact .some hb
    | false => exact ih

theorem Rel.update {stock stock' : Stock} (h : stock.Rel value stock') (id : Nat)
    {b b' : Behaviour} (hb : b.Rel value b') :
    (stock.update id b).Rel value (stock'.update id b') := by
  unfold Rel Stock.update
  rw [List.forall₂_map_left_iff, List.forall₂_map_right_iff]
  refine h.imp ?_
  rintro entry entry' ⟨hid, hbehaviour⟩
  rw [← hid]
  split
  · exact ⟨rfl, hb⟩
  · exact ⟨hid, hbehaviour⟩

/-- Stock natives answer related arguments alike. -/
theorem respects (hpaired : ∀ v w, value v w → v.Paired code w)
    (hdata : ∀ v, ¬ v.IsFunction → value v v) : host.Respects value (Rel value) := by
  intro f args args' stock stock' get get' hargs hstock hget
  have hlookup := hstock.lookup f.id
  simp only [host]
  generalize stock.lookup f.id = r at hlookup
  generalize stock'.lookup f.id = r' at hlookup
  cases hlookup with
  | none => exact ⟨.ok (hdata _ fun h => h), hstock, .nil⟩
  | some hb =>
    obtain ⟨hanswer, hafter⟩ := hb.answer hpaired hdata hargs
    exact ⟨hanswer, hstock.update f.id hafter, .nil⟩

/-- Stock natives hold no cells. -/
theorem setsNoCells : host.SetsNoCells := by
  intro f args stock get write hwrite
  simp only [host] at hwrite
  split at hwrite
  · exact List.not_mem_nil hwrite
  · exact List.not_mem_nil hwrite

def Holds (stock : Stock) (v : Value) : Prop := ∃ id, (id, Behaviour.const v) ∈ stock

theorem holds_of_lookup {stock : Stock} {id : Nat} {v : Value}
    (h : stock.lookup id = some (.const v)) : stock.Holds v := by
  obtain ⟨before, after, rfl, -⟩ := List.lookup_eq_some_iff.1 h
  exact ⟨id, by simp⟩

theorem holds_of_update {stock : Stock} {id : Nat} {b : Behaviour} {v : Value}
    (h : (stock.update id b).Holds v) : b = .const v ∨ stock.Holds v := by
  obtain ⟨i, hmem⟩ := h
  obtain ⟨entry, hentry, heq⟩ := List.mem_map.1 hmem
  split at heq
  · exact .inl (congrArg Prod.snd heq)
  · subst heq
    exact .inr ⟨i, hentry⟩

theorem handsBack : host.HandsBack Holds where
  returned := by
    intro f args stock get v hcall hfunction
    simp only [host] at hcall
    split at hcall
    · cases hcall
      exact absurd hfunction fun h => h
    · next b hlookup =>
      cases b with
      | const u =>
        cases hcall
        exact .inr (holds_of_lookup hlookup)
      | echo =>
        cases hcall
        cases args with
        | nil => exact absurd hfunction fun h => h
        | cons v args => exact .inl List.mem_cons_self
      | fail e => cases hcall
      | _ =>
        cases hcall
        exact absurd hfunction fun h => h
  written h := (setsNoCells _ _ _ _ _ h).elim
  kept := by
    intro f args stock get v hheld
    simp only [host] at hheld
    split at hheld
    · exact .inr hheld
    · next b hlookup =>
      rcases holds_of_update hheld with hafter | hbefore
      · -- Only a constant behaves as a constant afterwards.
        cases b with
        | const u =>
          cases hafter
          exact .inr (holds_of_lookup hlookup)
        | _ => cases hafter
      · exact .inr hbefore

end Stock

def withNative {η : Type} (policy : Policy) (host : η) : Interpreter η :=
  (Interpreter.new { policy, prelude := false } host).register ⟨0, "ask", none⟩

theorem withNative_lookup? {η : Type} {policy : Policy} {host : η} {name : Name} {v : Value}
    (h : (withNative policy host).lookup? name = some v) : ¬ v.IsFunction := by
  rw [withNative, Interpreter.lookup?_register] at h
  split at h
  · cases h
    exact fun h => h
  · cases h

def asked : Tree where
  tag := "program"
  children := [{ tag := "call", attributes := .ofList [("fun", "ask")] }]

def withEcho : Interpreter Stock :=
  { (Interpreter.new {} [(6, .echo)]).register ⟨6, "echo", none⟩ with nextId := 7 }

theorem withEcho_holds {v : Value} : ¬ withEcho.world.host.Holds v := by
  rintro ⟨id, hmem⟩
  cases List.mem_singleton.1 hmem

theorem withEcho_lookup? {name : Name} {v : Value} (h : withEcho.lookup? name = some v) :
    ¬ v.IsFunction := by
  have hregister : withEcho.lookup? name =
      ((Interpreter.new {} [(6, Behaviour.echo)]).register ⟨6, "echo", none⟩).lookup? name := rfl
  rw [hregister, Interpreter.lookup?_register] at h
  split at h
  · cases h
    exact fun h => h
  · obtain ⟨f, rfl⟩ := Interpreter.lookup?_new h
    exact fun h => h

end Treewalk
