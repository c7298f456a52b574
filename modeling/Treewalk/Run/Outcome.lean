import Treewalk.Error

/-!
The ways a run can end. It ends with a flow, that is a value or a jump still
looking for its label, or with an error, or it has used up its fuel; a flow and
an error come with the state they leave.
-/
namespace Treewalk

/-- A value, or a jump to a label that no block has resolved yet. -/
inductive Flow (α : Type) where
  | value (a : α)
  | jump (label : Name)

inductive Outcome (σ α : Type) where
  | done (a : α) (s : σ)
  | failed (e : Error) (s : σ)
  | outOfFuel

namespace Outcome

variable {σ τ α β : Type}

/-- Continues with a value; a jump, an error and the end of fuel pass outward. -/
@[inline] def onValue (o : Outcome σ (Flow α)) (k : α → σ → Outcome σ (Flow β)) :
    Outcome σ (Flow β) :=
  match o with
  | done (.value a) s => k a s
  | done (.jump label) s => done (.jump label) s
  | failed e s => failed e s
  | outOfFuel => outOfFuel

@[inline] def mapState (f : σ → τ) : Outcome σ α → Outcome τ α
  | done a s => done a (f s)
  | failed e s => failed e (f s)
  | outOfFuel => outOfFuel

@[inline] def mapError (f : Error → Error) : Outcome σ α → Outcome σ α
  | done a s => done a s
  | failed e s => failed (f e) s
  | outOfFuel => outOfFuel

def ofExcept (s : σ) : Except Error α → Outcome σ α
  | .ok a => done a s
  | .error e => failed e s

end Outcome

end Treewalk
