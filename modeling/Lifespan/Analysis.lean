import Lifespan.AbstractState
import Lifespan.Condition
import Lifespan.Resolver

namespace Lifespan

open Dataflow

namespace Numeric

variable (env : Environment)

/-- Stores the value of an int local, or keeps what there is: references are left to the points-to
facts, and parameters are unconstrained from the start. -/
def assignWith {β : Type} (kept : β) (store : String → Term String → Except Error β)
    (target : Place) (value : Expr) : Except Error β :=
  let reject (sort : AssignTarget) := Except.error (.unsupported (.assignment sort target value))
  match target with
  | .field .. => reject .field
  | .staticField .. => reject .staticField
  | .element .. => reject .element
  | .var x =>
    match x.ty, value with
    | .double, _ => reject .double
    | .array _, _ => reject .array
    | .object _, _ => .ok kept
    | .int, .param _ => .ok kept
    | .int, e => do store x.name (← e.term)

def assign (target : Place) (value : Expr) (s : Octagon env.size) :
    Except Error (Octagon env.size) :=
  assignWith s (env.assign s) target value

/-- Keeps the end of a constructed interval. On a cycle one variable stands for many intervals, so
what it held before stays possible. -/
def construct (i : Initializer) (onCycle : Bool) (s : Octagon env.size) :
    Except Error (Octagon env.size) := do
  let assigned ← env.assign s i.ghost (← i.finish.term)
  return if onCycle then s.join assigned else assigned

/-- Constructs the interval of an initializer; any other call that can be analyzed keeps what
there is. -/
def callWith {β : Type} (kept : β) (constructed : Initializer → Except Error β)
    (init : Option Initializer) (c : Call) : Except Error β :=
  if c.kind = .virtual then .ok kept
  else if c.kind = .special ∧ c.method = constructorName then
    match init with
    | none => .ok kept
    | some i => constructed i
  else .error (.unsupported (.invocation c))

def call (init : Option Initializer) (onCycle : Bool) (c : Call) (s : Octagon env.size) :
    Except Error (Octagon env.size) :=
  callWith s (fun i => construct env i onCycle s) init c

/-- What an instruction does to a state; `init` is the initializer at its site. -/
def transfer {n : Nat} (init : Option Initializer) (onCycle : Bool) (instr : Instr n)
    (s : Octagon env.size) : Except Error (Outflow (Octagon env.size)) :=
  match instr with
  | .assign target value => return ⟨some (← assign env target value s), none⟩
  | .branch cond _ => do
    let b ← cond.branching
    let passed ← env.meet s b.passed
    let taken ← env.meet s b.taken
    return ⟨some passed, some taken⟩
  | .goto _ => .ok ⟨none, some s⟩
  | .call c => return ⟨some (← call env init onCycle c s), none⟩
  | .returnVoid => .ok ⟨some s, none⟩
  | .returnValue e => .error (.unsupported (.returnValue e))
  | .throwValue e => .error (.unsupported (.throwValue e))

/-- Visits of a loop head before its states are widened. -/
def wideningThreshold : Nat := 6

/-- A bound on the steps of one analysis. -/
def stepLimit : Nat := 0x4000000000000000

def problem (r : Resolver) (method : Nat) (b : Body) : Problem (Octagon env.size) b.size where
  graph := b.graph
  bottom := .empty
  entry := .top env.size
  transfer :=
    let cycles := b.graph.onCycle
    fun i s => transfer env (r.initializerAt ⟨method, i⟩) (cycles.contains i) (b.code.get i) s
  threshold := some wideningThreshold

end Numeric

/-- Its int locals, then the ends of its intervals. -/
def Method.environment (m : Method) (inits : List Initializer) : Except Error Environment :=
  Environment.ofVars (m.integerLocals ++ inits.map Initializer.ghost)

structure Analysis where
  env : Environment
  size : Nat
  solution : Solution (Octagon env.size) size

namespace Analysis

def ofBody (r : Resolver) (m : Method) (id : Nat) (b : Body) : Logged Analysis :=
  Logged.within (.analysis m.name) do
    let env ← m.environment (r.initializersOf id)
    Logged.report (.environment env)
    let solution ← (Numeric.problem env r id b).solve Numeric.stepLimit
    Logged.report (.methodDone m.name env solution.steps)
    return ⟨env, b.size, solution⟩

/-- A method without a body has no analysis. -/
def ofMethod (r : Resolver) (m : Method) (id : Nat) : Logged (Option Analysis) :=
  match m.body with
  | none => pure none
  | some b => some <$> ofBody r m id b

def node? (a : Analysis) (index : Nat) : Option (Node (Octagon a.env.size)) :=
  a.solution.nodes[index]?

end Analysis

end Lifespan
