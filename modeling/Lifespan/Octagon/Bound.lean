namespace Lifespan

inductive Bound where
  | finite (c : Int)
  | absent
  deriving DecidableEq

namespace Bound

/-- One less than `2 ^ 125`. -/
def limit : Int := 0x1FFFFFFFFFFFFFFFFFFFFFFFFFFFFFFF

def ofInt (c : Int) : Bound := if c < limit then finite c else absent

def toInt? : Bound → Option Int
  | finite c => some c
  | absent => none

/-- The bound on a sum. -/
protected def add : Bound → Bound → Bound
  | finite a, finite b => ofInt (a + b)
  | _, _ => absent

instance : Add Bound := ⟨Bound.add⟩

/-- The tighter bound. -/
protected def min : Bound → Bound → Bound
  | finite a, finite b => finite (if a ≤ b then a else b)
  | finite a, absent => finite a
  | absent, b => b

instance : Min Bound := ⟨Bound.min⟩

/-- The looser bound. -/
protected def max : Bound → Bound → Bound
  | finite a, finite b => finite (if a ≤ b then b else a)
  | _, _ => absent

instance : Max Bound := ⟨Bound.max⟩

/-- Whether `a` is at least as tight as `b`. -/
protected def le : Bound → Bound → Bool
  | finite a, finite b => a ≤ b
  | _, absent => true
  | absent, finite _ => false

instance : LE Bound := ⟨fun a b => Bound.le a b = true⟩

instance (a b : Bound) : Decidable (a ≤ b) := inferInstanceAs (Decidable (Bound.le a b = true))

def isNegative : Bound → Bool
  | finite c => c < 0
  | absent => false

def shift (d : Int) : Bound → Bound
  | finite c => ofInt (c + d)
  | absent => absent

/-- The greatest even bound below, for a quantity that is even. -/
def even : Bound → Bound
  | finite c => finite (2 * (c / 2))
  | absent => absent

/-- The bound on half a sum, rounded down. -/
def halfSum : Bound → Bound → Bound
  | finite a, finite b => ofInt ((a + b) / 2)
  | _, _ => absent

end Bound

end Lifespan
