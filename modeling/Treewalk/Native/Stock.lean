import Treewalk.Native.Basic

/-!
A stock of simple natives for hosts that need no code of their own. The host's
state says how each of its natives behaves; only a counter changes it.
-/
namespace Treewalk

/-- How a stock native answers a call. None of them minds the number of arguments. -/
inductive Behaviour where
  | const (v : Value)
  | count
  | join
  | echo
  | typeName
  | truthy
  | tick (calls : Nat)
  | fail (e : Error)

namespace Behaviour

def answer (args : List Value) : Behaviour → Except Error Value × Behaviour
  | const v => (.ok v, const v)
  | count => (.ok (.number (Float.ofNat args.length)), count)
  | join => (.ok (.text (",".intercalate (args.map Value.display))), join)
  | echo => (.ok (args.headD .absent), echo)
  | typeName => (.ok (.text ((args.head?.map Value.typeName).getD "")), typeName)
  | truthy => (.ok (.bool ((args.head?.map Value.truthy).getD false)), truthy)
  | tick calls => (.ok (.number (Float.ofNat (calls + 1))), tick (calls + 1))
  | fail e => (.error e, fail e)

end Behaviour

abbrev Stock := List (Nat × Behaviour)

namespace Stock

def update (stock : Stock) (id : Nat) (behaviour : Behaviour) : Stock :=
  stock.map fun entry => if entry.1 = id then (id, behaviour) else entry

def host : Host Stock where
  call f args stock _ :=
    match stock.lookup f.id with
    | none => { answer := .ok .absent, state := stock }
    | some behaviour =>
      let (answer, behaviour) := behaviour.answer args
      { answer, state := update stock f.id behaviour }

end Stock

end Treewalk
