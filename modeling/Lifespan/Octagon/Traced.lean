import Lifespan.Octagon.Basic
import Lifespan.Traced

namespace Lifespan

namespace Bound

def addTraced : Bound → Bound → Traced Bound
  | finite a, finite b => do return ofInt (← .perform (.sum a b))
  | _, _ => pure absent

def evenTraced : Bound → Traced Bound
  | finite c => do return finite (← .perform (.double (← .perform (.half c))))
  | absent => pure absent

def halfSumTraced : Bound → Bound → Traced Bound
  | finite a, finite b => do return ofInt (← .perform (.half (← .perform (.sum a b))))
  | _, _ => pure absent

/-- The bound on `j - i` after `j` grew by the first number and `i` by the second. -/
def shiftTraced (upper lower : Traced Int) : Bound → Traced Bound
  | finite c => do
    let raised ← .perform (.sum c (← upper))
    return ofInt (← .perform (.difference raised (← lower)))
  | absent => pure absent

end Bound

def Interval.negTraced (a : Interval) : Traced Interval := do
  let lo ← .negated a.hi
  return ⟨lo, ← .negated a.lo⟩

namespace Linear

variable {n : Nat}

def offsetTraced (c : Int) (f : Linear n) : Traced (Linear n) := do
  return ⟨f.coeffs, ← .perform (.sum f.constant c)⟩

/-- Only the coefficients of variables that occur are negated. -/
def negateTraced (f : Linear n) : Traced (Linear n) := do
  let coeffs ← .ofFn fun x =>
    if f.coeffs.get x = 0 then pure 0 else .perform (.negation (f.coeffs.get x))
  return ⟨coeffs, ← .perform (.negation f.constant)⟩

end Linear

namespace Matrix

variable {n : Nat}

def lowerRowTraced (m : Matrix n) (i : Literal n) (source : Literal n → Literal n)
    (f : Bound → Traced Bound) :
    Traced (Matrix n) :=
  (Literal.all n).foldlM
    (fun m j => do return m.set i j (min (m.get i j) (← f (m.get (source j) j)))) m

def relaxRowTraced (k : Literal n) (m : Matrix n) (i : Literal n) : Traced (Matrix n) :=
  match m.get i k with
  | .absent => pure m
  | b => m.lowerRowTraced i (fun _ => k) b.addTraced

def pivotTraced (m : Matrix n) (k : Literal n) : Traced (Matrix n) :=
  (Literal.all n).foldlM (relaxRowTraced k) m

def shortestPathsTraced (m : Matrix n) : Traced (Matrix n) := (Literal.all n).foldlM pivotTraced m

def tightenTraced (m : Matrix n) : Traced (Matrix n) :=
  (Literal.all n).foldlM (fun m i => do return m.set i i.bar (← (m.get i i.bar).evenTraced)) m

def strengthenTraced (m : Matrix n) : Traced (Matrix n) :=
  (Literal.all n).foldlM (fun m i => m.lowerRowTraced i Literal.bar (m.get i i.bar).halfSumTraced) m

/-- Sets the diagonal to zero at the given literals, unless one of them shows that there is
no point. -/
def finishTraced? (m : Matrix n) : List (Literal n) → Traced (Option (Matrix n))
  | [] => pure (some m)
  | i :: rest => do
    let range ← (m.get i i.bar).addTraced (m.get i.bar i)
    if range.isNegative || (m.get i i).isNegative then pure none
    else (m.set i i (.finite 0)).finishTraced? rest

/-- Closing in place, with all the arithmetic that is done on the way. -/
def closeTraced? (m : Matrix n) : Traced (Option (Matrix n)) := do
  let paths ← m.shortestPathsTraced
  if paths.hasNegativeLoop then pure none
  else (← (← paths.tightenTraced).strengthenTraced).finishTraced? (Literal.all n)

def addScaledTraced (m : Matrix n) (x : Fin n) (k c : Int) : Traced (Matrix n) :=
  if 0 < k then pure (m.addUpper (.pos x) (c / k))
  else if k < 0 then do return m.addUpper (.neg x) (c / (← .perform (.negation k)))
  else pure m

def addIntervalTraced (m : Matrix n) (x : Fin n) (a : Interval) : Traced (Matrix n) :=
  let m := match a.hi with
    | some h => m.addUpper (.pos x) h
    | none => m
  match a.lo with
  | some l => do return m.addUpper (.neg x) (← .perform (.negation l))
  | none => pure m

def growthTraced (x : Fin n) (c : Int) (i : Literal n) : Traced Int :=
  if i.var = x then (if i.negative then .perform (.negation c) else pure c) else pure 0

def shiftTraced (m : Matrix n) (x : Fin n) (c : Int) : Traced (Matrix n) := do
  return ⟨← .ofFn fun i => .ofFn fun j => (m.get (.ofIndex i) (.ofIndex j)).shiftTraced
    (growthTraced x c (.ofIndex j)) (growthTraced x c (.ofIndex i))⟩

def unitPairTraced? : List (Fin n × Int) → Traced (Option ((Fin n × Int) × (Fin n × Int)))
  | [(x, k), (y, l)] => do
    if (← .perform (.size k)) ≠ 1 then pure none
    else if (← .perform (.size l)) ≠ 1 then pure none
    else pure (some ((x, k), (y, l)))
  | _ => pure none

def rangeTraced (m : Matrix n) (f : Linear n) : Traced Interval := do
  let sum := m.sumOf f.summands
  match ← unitPairTraced? f.summands with
  | some ((x, k), (y, l)) =>
    let lo ← .negated (m.upperSum? (.ofUnit (-k) x) (.ofUnit (-l) y))
    return (Interval.inter ⟨lo, m.upperSum? (.ofUnit k x) (.ofUnit l y)⟩ sum).add
      (.point f.constant)
  | none => return sum.add (.point f.constant)

def termRangeTraced (m : Matrix n) : Term (Fin n) → Traced Interval
  | .const c => pure (.point c)
  | .var x => pure (m.interval x)
  | .add l r => do return (← m.termRangeTraced l).add (← m.termRangeTraced r)
  | .sub l r => do return (← m.termRangeTraced l).add (← (← m.termRangeTraced r).negTraced)
  | .mul l r => do return (← m.termRangeTraced l).mul (← m.termRangeTraced r)

def rangeOfTraced (m : Matrix n) (t : Term (Fin n)) : Traced Interval :=
  match t.linear? with
  | some f => m.rangeTraced f
  | none => m.termRangeTraced t

def addSpreadTraced (m : Matrix n) (summands : List (Fin n × Int)) (c : Int) :
    Traced (Matrix n) :=
  summands.foldlM (fun m (x, k) =>
    match (m.sumOf (summands.filter (·.1 ≠ x))).lo with
    | some l => do m.addScaledTraced x k (← .perform (.difference c l))
    | none => pure m) m

def addNonnegTraced (m : Matrix n) (f : Linear n) : Traced (Option (Matrix n)) := do
  if (← m.rangeTraced f).refutes .ge then pure none
  else
    let summands ← f.summands.mapM fun (x, k) => do return (x, ← .perform (.negation k))
    match ← unitPairTraced? summands, summands with
    | some ((x, k), (y, l)), _ => pure (some (m.addSum (.ofUnit k x) (.ofUnit l y) f.constant))
    | none, [] => pure (if 0 ≤ f.constant then some m else none)
    | none, [(x, k)] => do return some (← m.addScaledTraced x k f.constant)
    | none, summands => do return some (← m.addSpreadTraced summands f.constant)

def addLinearTraced (m : Matrix n) (f : Linear n) : Relation → Traced (Option (Matrix n))
  | .ge => m.addNonnegTraced f
  | .gt => do m.addNonnegTraced (← f.offsetTraced (-1))
  | .eq => do
    match ← m.addNonnegTraced f with
    | none => pure none
    | some m => m.addNonnegTraced (← f.negateTraced)
  | .ne => do
    let range ← m.rangeTraced f
    if range = .point 0 then pure none
    else if range.lo = some 0 then m.addNonnegTraced (← f.offsetTraced (-1))
    else if range.hi = some 0 then m.addNonnegTraced (← (← f.negateTraced).offsetTraced (-1))
    else pure (some m)

def relateTraced (m : Matrix n) (x y : Fin n) (k : Int) (rest : Interval) : Traced (Matrix n) :=
  let m := match rest.hi with
    | some h => m.addSum (.pos x) (.ofUnit (-k) y) h
    | none => m
  match rest.lo with
  | some l => do return m.addSum (.neg x) (.ofUnit k y) (← .perform (.negation l))
  | none => pure m

/-- The summands that the new value of `x` is related to, with the ranges of what is left. -/
def relationsTraced (m : Matrix n) (x : Fin n) (f : Linear n) :
    List (Fin n × Int) → Traced (List (Fin n × Int × Interval))
  | [] => pure []
  | (y, k) :: rest => do
    if y = x then m.relationsTraced x f rest
    else if (← .perform (.size k)) ≠ 1 then m.relationsTraced x f rest
    else
      let range ← m.rangeTraced (f.without y)
      return (y, k, range) :: (← m.relationsTraced x f rest)

def assignLinearTraced (m : Matrix n) (x : Fin n) (f : Linear n) : Traced (Matrix n) := do
  let range ← m.rangeTraced f
  let relations ← m.relationsTraced x f f.summands
  relations.foldlM (fun m (y, k, rest) => m.relateTraced x y k rest)
    (← (m.forget x).addIntervalTraced x range)

end Matrix

namespace Octagon

variable {n : Nat}

def closureTraced? : Octagon n → Traced (Option (Matrix n))
  | empty => pure none
  | loose m => m.closeTraced?
  | tight m => pure (some m)

def ofMatrixTraced (m : Matrix n) : Traced (Octagon n) := do
  match ← m.closeTraced? with
  | some m => pure (tight m)
  | none => pure empty

def joinTraced (a b : Octagon n) : Traced (Octagon n) := do
  match ← a.closureTraced?, ← b.closureTraced? with
  | none, none => pure empty
  | some m, none => pure (loose m)
  | none, some m => pure (loose m)
  | some m, some k => pure (loose (m.join k))

def meetTraced (s : Octagon n) (c : Constraint (Fin n)) : Traced (Octagon n) := do
  match ← s.closureTraced? with
  | none => pure empty
  | some m =>
    match c.term.linear? with
    | none =>
      if (← m.termRangeTraced c.term).refutes c.relation then pure empty else ofMatrixTraced m
    | some f =>
      match ← m.addLinearTraced f c.relation with
      | none => pure empty
      | some m => ofMatrixTraced m

def assignTraced (s : Octagon n) (x : Fin n) (t : Term (Fin n)) : Traced (Octagon n) := do
  match ← s.closureTraced? with
  | none => pure empty
  | some m =>
    match t.linear? with
    | none =>
      let range ← m.termRangeTraced t
      ofMatrixTraced (← (m.forget x).addIntervalTraced x range)
    | some f =>
      if isShift x f then return tight (← m.shiftTraced x f.constant)
      else ofMatrixTraced (← m.assignLinearTraced x f)

def satisfiesTraced (s : Octagon n) (c : Constraint (Fin n)) : Traced Bool := do
  match ← s.closureTraced? with
  | none => pure true
  | some m => return (← m.rangeOfTraced c.term).entails c.relation

end Octagon

end Lifespan
