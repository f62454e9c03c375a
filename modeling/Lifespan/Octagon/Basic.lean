import Lifespan.FinMap
import Lifespan.Octagon.Closure
import Lifespan.Octagon.Linear

namespace Lifespan

namespace Matrix

variable {n : Nat}

def sumOf (m : Matrix n) (summands : List (Fin n × Int)) : Interval :=
  summands.foldl (fun acc (x, k) => acc.add ((m.interval x).scale k)) (.point 0)

/-- The two summands of `±x ± y`. -/
def unitPair? : List (Fin n × Int) → Option ((Fin n × Int) × (Fin n × Int))
  | [(x, k), (y, l)] => if k.natAbs = 1 ∧ l.natAbs = 1 then some ((x, k), (y, l)) else none
  | _ => none

/-- The range of a linear form; on `±x ± y` the bounds between the variables count too. -/
def range (m : Matrix n) (f : Linear n) : Interval :=
  let sum := m.sumOf f.summands
  let sum := match unitPair? f.summands with
    | some ((x, k), (y, l)) =>
      let lo := (m.upperSum? (.ofUnit (-k) x) (.ofUnit (-l) y)).map (-·)
      Interval.inter ⟨lo, m.upperSum? (.ofUnit k x) (.ofUnit l y)⟩ sum
    | none => sum
  sum.add (.point f.constant)

/-- The range of a term by interval arithmetic. -/
def termRange (m : Matrix n) : Term (Fin n) → Interval
  | .const c => .point c
  | .var x => m.interval x
  | .add l r => (m.termRange l).add (m.termRange r)
  | .sub l r => (m.termRange l).add (m.termRange r).neg
  | .mul l r => (m.termRange l).mul (m.termRange r)

/-- The range of a term, through its linear form if it has one. -/
def rangeOf (m : Matrix n) (t : Term (Fin n)) : Interval :=
  match t.linear? with
  | some f => m.range f
  | none => m.termRange t

/-- Adds `sum of k * x ≤ c` where it is not octagonal: each variable is bounded through the others.
The differences are exact; those of `addSpreadTraced` may overflow. -/
def addSpread (m : Matrix n) (summands : List (Fin n × Int)) (c : Int) : Matrix n :=
  summands.foldl (fun m (x, k) =>
    match (m.sumOf (summands.filter (·.1 ≠ x))).lo with
    | some l => m.addScaled x k (c - l)
    | none => m) m

/-- Adds `f ≥ 0`, none if that is seen to be impossible. -/
def addNonneg (m : Matrix n) (f : Linear n) : Option (Matrix n) :=
  if (m.range f).refutes .ge then none
  else
    let summands := f.summands.map fun (x, k) => (x, -k)
    match unitPair? summands, summands with
    | some ((x, k), (y, l)), _ => some (m.addSum (.ofUnit k x) (.ofUnit l y) f.constant)
    | none, [] => if 0 ≤ f.constant then some m else none
    | none, [(x, k)] => some (m.addScaled x k f.constant)
    | none, summands => some (m.addSpread summands f.constant)

/-- Adds `f relation 0`. Of a disequation only a value at either end of the range can be cut off. -/
def addLinear (m : Matrix n) (f : Linear n) : Relation → Option (Matrix n)
  | .ge => m.addNonneg f
  | .gt => m.addNonneg (f.offset (-1))
  | .eq => (m.addNonneg f).bind (·.addNonneg f.negate)
  | .ne =>
    let range := m.range f
    if range = .point 0 then none
    else if range.lo = some 0 then m.addNonneg (f.offset (-1))
    else if range.hi = some 0 then m.addNonneg (f.negate.offset (-1))
    else some m

/-- What is known about the new value of `x` relative to `y`, for a summand `k * y` with
unit `k`. -/
def relate (m : Matrix n) (x y : Fin n) (k : Int) (rest : Interval) : Matrix n :=
  let m := match rest.hi with
    | some h => m.addSum (.pos x) (.ofUnit (-k) y) h
    | none => m
  match rest.lo with
  | some l => m.addSum (.neg x) (.ofUnit k y) (-l)
  | none => m

/-- Replaces `x` by the value of `f`; all that is known of it is collected before `x` is dropped. -/
def assignLinear (m : Matrix n) (x : Fin n) (f : Linear n) : Matrix n :=
  let relations := (f.summands.filter fun (y, k) => y ≠ x ∧ k.natAbs = 1).map
    fun (y, k) => (y, k, m.range (f.without y))
  relations.foldl (fun m (y, k, rest) => m.relate x y k rest)
    ((m.forget x).addInterval x (m.range f))

end Matrix

/-- An octagon; `tight` marks a matrix that is known to be closed. -/
inductive Octagon (n : Nat) where
  | empty
  | loose (m : Matrix n)
  | tight (m : Matrix n)

namespace Octagon

variable {n : Nat}

def top (n : Nat) : Octagon n := tight (.top n)

def matrix? : Octagon n → Option (Matrix n)
  | empty => none
  | loose m | tight m => some m

/-- The closed matrix, none if no point is left. -/
def closure? : Octagon n → Option (Matrix n)
  | empty => none
  | loose m => m.close?
  | tight m => some m

def ofMatrix (m : Matrix n) : Octagon n :=
  match m.close? with
  | some m => tight m
  | none => empty

def isEmpty (s : Octagon n) : Bool := s.closure?.isNone

def join (a b : Octagon n) : Octagon n :=
  match a.closure?, b.closure? with
  | none, none => empty
  | some m, none => loose m
  | none, some m => loose m
  | some m, some k => loose (m.join k)

/-- The older octagon is read as it stands: closing it first could go on forever. -/
def widen (older newer : Octagon n) : Octagon n :=
  match older.matrix?, newer.closure? with
  | none, _ => newer
  | some _, none => older
  | some m, some k => loose (m.widen k)

/-- Whether two octagons have the same closure. -/
def same (a b : Octagon n) : Bool := a.closure? = b.closure?

instance : AbstractDomain (Octagon n) where
  join := join
  widen := widen
  same := same

/-- Keeps the points that satisfy the constraint, as far as octagons can tell. -/
def meet (s : Octagon n) (c : Constraint (Fin n)) : Octagon n :=
  match s.closure? with
  | none => empty
  | some m =>
    match c.term.linear? with
    | none => if (m.termRange c.term).refutes c.relation then empty else ofMatrix m
    | some f =>
      match m.addLinear f c.relation with
      | none => empty
      | some m => ofMatrix m

/-- A form that is `x` plus a constant. -/
def isShift (x : Fin n) (f : Linear n) : Bool := f.summands = [(x, 1)]

/-- The octagon after `x := t`. -/
def assign (s : Octagon n) (x : Fin n) (t : Term (Fin n)) : Octagon n :=
  match s.closure? with
  | none => empty
  | some m =>
    match t.linear? with
    | none => ofMatrix ((m.forget x).addInterval x (m.termRange t))
    | some f => if isShift x f then tight (m.shift x f.constant) else ofMatrix (m.assignLinear x f)

/-- Whether the bounds show that every point satisfies the constraint. -/
def satisfies (s : Octagon n) (c : Constraint (Fin n)) : Bool :=
  match s.closure? with
  | none => true
  | some m => (m.rangeOf c.term).entails c.relation

end Octagon

end Lifespan
