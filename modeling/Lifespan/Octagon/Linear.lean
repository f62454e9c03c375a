import Lifespan.Term

namespace Lifespan

structure Linear (n : Nat) where
  coeffs : Vector Int n
  constant : Int
  deriving DecidableEq

namespace Linear

variable {n : Nat}

def ofConst (c : Int) : Linear n := ⟨Vector.replicate n 0, c⟩

def ofVar (x : Fin n) : Linear n := ⟨Vector.ofFn fun y => if y = x then 1 else 0, 0⟩

def fits (v : Int) : Bool := (signed? int128Limit v).isSome

/-- `f + k * g`. -/
def combine (f : Linear n) (k : Int) (g : Linear n) : Option (Linear n) :=
  let safe (a b : Int) : Bool := fits (b * k) && fits (a + b * k)
  if (List.finRange n).all (fun x => safe (f.coeffs.get x) (g.coeffs.get x)) &&
      safe f.constant g.constant then
    some ⟨Vector.ofFn fun x => f.coeffs.get x + g.coeffs.get x * k, f.constant + g.constant * k⟩
  else none

/-- `k * f`. -/
def scale (k : Int) (f : Linear n) : Option (Linear n) :=
  if (List.finRange n).all (fun x => fits (f.coeffs.get x * k)) && fits (f.constant * k) then
    some ⟨f.coeffs.map (· * k), f.constant * k⟩
  else none

def offset (c : Int) (f : Linear n) : Linear n := ⟨f.coeffs, f.constant + c⟩

def negate (f : Linear n) : Linear n := ⟨f.coeffs.map (-·), -f.constant⟩

/-- Drops the summand of `x`. -/
def without (x : Fin n) (f : Linear n) : Linear n := ⟨f.coeffs.set x 0 x.isLt, f.constant⟩

/-- The variables that occur, with their coefficients. -/
def summands (f : Linear n) : List (Fin n × Int) :=
  (List.finRange n).filterMap fun x => if f.coeffs.get x = 0 then none else some (x, f.coeffs.get x)

def isConstant (f : Linear n) : Bool := f.summands.isEmpty

/-- The value at a valuation. -/
def eval (f : Linear n) (v : Fin n → Int) : Int :=
  f.summands.foldr (fun (x, k) rest => k * v x + rest) f.constant

def product (f g : Linear n) : Option (Linear n) :=
  if f.isConstant then g.scale f.constant
  else if g.isConstant then f.scale g.constant
  else none

end Linear

/-- The linear form of a term, if it has one. -/
def Term.linear? {n : Nat} : Term (Fin n) → Option (Linear n)
  | .const c => some (.ofConst c)
  | .var x => some (.ofVar x)
  | .add l r => do (← l.linear?).combine 1 (← r.linear?)
  | .sub l r => do (← l.linear?).combine (-1) (← r.linear?)
  | .mul l r => do (← l.linear?).product (← r.linear?)

end Lifespan
