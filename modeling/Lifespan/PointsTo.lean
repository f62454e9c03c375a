import Lifespan.Dataflow

namespace Lifespan

/-- The allocations that each reference may denote. -/
abbrev References := FinMap String (FinSet Site)

namespace References

def denoted (r : References) (x : String) : FinSet Site := (r.get? x).getD FinMap.empty

/-- What the value of an assignment denotes. -/
def value (r : References) (site : Site) : Expr → FinSet Site
  | .new _ | .newArray .. => FinSet.single site
  | .var x => r.denoted x.name
  | _ => FinMap.empty

def after {n : Nat} (r : References) (site : Site) : Instr n → References
  | .assign (.var x) e => if x.ty.isReference then r.insert x.name (r.value site e) else r
  | _ => r

end References

namespace Body

def pointsToProblem (b : Body) (method : Nat) : Dataflow.Problem References b.size where
  graph := b.graph
  bottom := FinMap.empty
  entry := FinMap.empty
  transfer i r := .ok (.uniform (r.after ⟨method, i⟩ (b.code.get i)))
  threshold := none

/-- Every instruction is pending once at first. Afterwards each of at most `2 * n` edge states grows
at most `n * (n + 1)` times, since a body assigns and allocates at most `n` times. -/
def pointsToFuel (b : Body) : Nat := b.size + 2 * b.size * (b.size * (b.size + 1))

def pointsTo (b : Body) (method : Nat) : Logged (Dataflow.Solution References b.size) :=
  (b.pointsToProblem method).solve b.pointsToFuel

end Body

/-- What each reference denotes before each instruction, by method. -/
structure PointsTo where
  methods : List (Array References)

namespace PointsTo

def ofMethod (m : Method) (id : Nat) : Logged (Array References) :=
  match m.body with
  | none => pure #[]
  | some b => do
    let solution ← b.pointsTo id
    Logged.report (.pointsTo m.name solution.steps)
    return solution.nodes.toArray.map Dataflow.Node.incoming

def ofClass (c : Class) : Logged PointsTo := do
  return ⟨← c.methods.zipIdx.mapM fun (m, id) => ofMethod m id⟩

/-- What `x` may denote right before the instruction at `site`. -/
def nodesAt (p : PointsTo) (site : Site) (x : Local) : FinSet Site :=
  match p.methods[site.method]? with
  | none => FinMap.empty
  | some states => (states[site.index]?).elim FinMap.empty fun r => r.denoted x.name

end PointsTo

end Lifespan
