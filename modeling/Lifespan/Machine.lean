import Lifespan.Analysis
import Lifespan.Octagon.Traced

namespace Lifespan

open Dataflow

namespace Environment

variable (env : Environment)

def meetTraced (s : Octagon env.size) (c : Constraint String) :
    Except Error (Traced (Octagon env.size)) := do
  return s.meetTraced (← c.resolve env.index)

def assignTraced (s : Octagon env.size) (x : String) (t : Term String) :
    Except Error (Traced (Octagon env.size)) := do
  let i ← env.index x
  return s.assignTraced i (← t.resolve env.index)

def satisfiesTraced (s : Octagon env.size) (c : Constraint String) :
    Except Error (Traced Bool) := do
  return s.satisfiesTraced (← c.resolve env.index)

def entailsGeTraced (s : Octagon env.size) (l r : Term String) : Except Error (Traced Bool) :=
  match l.constant?, r.constant? with
  | some a, some b => .ok (pure (b ≤ a))
  | _, _ => env.satisfiesTraced s ⟨.sub l r, .ge⟩

end Environment

namespace AbstractState

def meetTraced (s : AbstractState) (c : Constraint String) :
    Except Error (Traced AbstractState) := do
  return AbstractState.mk s.env <$> (← s.env.meetTraced s.shape c)

def assignTraced (s : AbstractState) (x : String) (t : Term String) :
    Except Error (Traced AbstractState) := do
  return AbstractState.mk s.env <$> (← s.env.assignTraced s.shape x t)

def satisfiesTraced (s : AbstractState) (c : Constraint String) : Except Error (Traced Bool) :=
  s.env.satisfiesTraced s.shape c

end AbstractState

namespace Numeric

variable (env : Environment)

def assignTraced (target : Place) (value : Expr) (s : Octagon env.size) :
    Except Error (Traced (Octagon env.size)) :=
  assignWith (pure s) (env.assignTraced s) target value

def constructTraced (i : Initializer) (onCycle : Bool) (s : Octagon env.size) :
    Except Error (Traced (Octagon env.size)) := do
  let assigned ← env.assignTraced s i.ghost (← i.finish.term)
  return if onCycle then assigned >>= s.joinTraced else assigned

def callTraced (init : Option Initializer) (onCycle : Bool) (c : Call) (s : Octagon env.size) :
    Except Error (Traced (Octagon env.size)) :=
  callWith (pure s) (fun i => constructTraced env i onCycle s) init c

/-- What an instruction does to a state; `init` is the initializer at its site. -/
def transferTraced {n : Nat} (init : Option Initializer) (onCycle : Bool) (instr : Instr n)
    (s : Octagon env.size) : Except Error (Traced (Outflow (Octagon env.size))) :=
  match instr with
  | .assign target value => do
    let run ← assignTraced env target value s
    return (fun d => ⟨some d, none⟩) <$> run
  | .branch cond _ => do
    let b ← cond.branching
    let passed ← env.meetTraced s b.passed
    let taken ← env.meetTraced s b.taken
    return passed >>= fun p => (fun t => ⟨some p, some t⟩) <$> taken
  | .goto _ => .ok (pure ⟨none, some s⟩)
  | .call c => do
    let run ← callTraced env init onCycle c s
    return (fun d => ⟨some d, none⟩) <$> run
  | .returnVoid => .ok (pure ⟨some s, none⟩)
  | .returnValue e => .error (.unsupported (.returnValue e))
  | .throwValue e => .error (.unsupported (.throwValue e))

end Numeric

end Lifespan
