import Lifespan.Octagon.Matrix

namespace Lifespan.Matrix

variable {n : Nat}

def row (m : Matrix n) (i : Literal n) : Vector Bound (2 * n) := m.rows.get i.index

/-- Allows paths through `k`. -/
def pivot (m : Matrix n) (k : Literal n) : Matrix n :=
  let through := m.row k
  ⟨m.rows.map fun r =>
    match r.get k.index with
    | .absent => r
    | b => r.zipWith (fun direct rest => min direct (b + rest)) through⟩

def shortestPaths (m : Matrix n) : Matrix n := (Literal.all n).foldl pivot m

/-- A literal minus its opposite is even. -/
def tighten (m : Matrix n) : Matrix n :=
  ofFn fun i j => if j = i.bar then (m.get i j).even else m.get i j

/-- `j - i` is half the sum of `j - (-j)` and `(-i) - i`. -/
def strengthen (m : Matrix n) : Matrix n :=
  ofFn fun i j => min (m.get i j) ((m.get i i.bar).halfSum (m.get j.bar j))

def hasNegativeLoop (m : Matrix n) : Bool := (Literal.all n).any fun i => (m.get i i).isNegative

/-- A literal whose upper bound lies below its lower bound. -/
def hasEmptyRange (m : Matrix n) : Bool :=
  (Literal.all n).any fun i => (m.get i i.bar + m.get i.bar i).isNegative

def zeroDiagonal (m : Matrix n) : Matrix n :=
  ofFn fun i j => if i = j then .finite 0 else m.get i j

/-- The tightest bounds that the constraints imply, none if they contradict each other. -/
def close? (m : Matrix n) : Option (Matrix n) :=
  let paths := m.shortestPaths
  if paths.hasNegativeLoop then none
  else
    let tight := paths.tighten.strengthen
    if tight.hasEmptyRange || tight.hasNegativeLoop then none else some tight.zeroDiagonal

end Lifespan.Matrix
