import Treewalk.Code.Block
import Treewalk.Native.Basic
import Treewalk.Run.Outcome

/-!
Running code. Each way to run a node is given over a way to run its parts, and
`run` ties the knot under a bound on the depth of nesting and on the steps of
each block. A jump travels outward as a result until a block that declares its
label resumes there; expressions it leaves are abandoned.
-/
namespace Treewalk

variable {η σ : Type}

abbrev Runner (σ : Type) := Code → σ → Outcome σ (Flow Value)

def nothing (s : σ) : Outcome σ (Flow Value) := .done (.value .absent) s

/-- Runs what is left of a block, `last` being the value of the child before. A jump
to one of the block's labels goes on at that label. -/
def runBlock (runner : Runner σ) (children : List Code) :
    Nat → List Code → Value → σ → Outcome σ (Flow Value)
  | 0, _, _, _ => .outOfFuel
  | _ + 1, [], last, s => .done (.value last) s
  | fuel + 1, child :: rest, last, s =>
    match runner child s with
    | .done (.value v) s => runBlock runner children fuel rest v s
    | .done (.jump name) s =>
      match Block.position? children name with
      | some i => runBlock runner children fuel (children.drop i) last s
      | none => .done (.jump name) s
    | .failed e s => .failed e s
    | .outOfFuel => .outOfFuel

/-- The values of the arguments from left to right; `taken` are those so far, the last
one first. -/
def runArgs (runner : Runner σ) :
    List Code → List Value → σ → Outcome σ (Flow (List Value))
  | [], taken, s => .done (.value taken.reverse) s
  | arg :: args, taken, s =>
    (runner arg s).onValue fun v s => runArgs runner args (v :: taken) s

def callNote (name : Name) : String := "in call to " ++ name.quoted

/-- Calls a function value. The body runs in the caller's environment with the
parameters bound on top; what it binds stays there, what it does to the world
stays done. -/
def callValue (host : Host η) (runner : Runner (Config η)) (env : Environment) (f : Value)
    (args : List Value) (w : World η) : Outcome (World η) (Flow Value) :=
  match f with
  | .native f =>
    match host.apply f args w with
    | (.ok v, w) => .done (.value v) w
    | (.error e, w) => .failed e w
  | .function _ name params body =>
    if args.length = params.length then
      ((runner body ⟨env.bindAll params args, w⟩).mapState Config.world).mapError
        (Error.withNote (callNote name))
    else .failed (.arityMismatch name params.length args.length) w
  | v => .failed (.notCallable v.typeName) w

/-- Runs a node, its parts by `runner`. The cell an assignment stores into is the one
bound before its expression runs. -/
def step (host : Host η) (runner : Runner (Config η)) (fuel : Nat) : Runner (Config η)
  | .const v, c => .done (.value v) c
  | .var name, c => Outcome.ofExcept c ((c.get name).map .value)
  | .define name, c => nothing (c.define name)
  | .assign name expr, c =>
    match c.env.slot? name with
    | none => .failed (.unboundVariable name) c
    | some (.plain _) => .failed (.invalidAssignment name) c
    | some (.cell cell) =>
      (runner expr c).onValue fun v c => .done (.value v) (c.store cell v)
  | .label _, c => nothing c
  | .goto name, c => .done (.jump name) c
  | .block children, c => runBlock runner children fuel children .absent c
  | .when test body, c =>
    (runner test c).onValue fun v c => if v.truthy then runner body c else nothing c
  | .choose test yes no, c =>
    (runner test c).onValue fun v c => if v.truthy then runner yes c else runner no c
  | .call callee args, c =>
    (runner callee c).onValue fun f c =>
      (runArgs runner args [] c).onValue fun vs c =>
        (callValue host runner c.env f vs c.world).mapState (Config.mk c.env)
  | .definition .., c => nothing c

/-- Runs code under a bound on nesting and on the steps of each block. -/
def run (host : Host η) : Nat → Runner (Config η)
  | 0 => fun _ _ => .outOfFuel
  | fuel + 1 => step host (run host fuel) fuel

/-- The fuel that a console gives to each request. A run that needs more is cut off, and is
reported as out of fuel. -/
def ample : Nat := Nat.pow 2 40

@[simp] theorem run_zero (host : Host η) (code : Code) (c : Config η) :
    run host 0 code c = .outOfFuel := rfl

theorem run_succ (host : Host η) (fuel : Nat) (code : Code) (c : Config η) :
    run host (fuel + 1) code c = step host (run host fuel) fuel code c := rfl

end Treewalk
