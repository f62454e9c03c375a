import Lifespan.Octagon.Bound
import Lifespan.Octagon.Interval

namespace Lifespan

/-- A variable or its negation. -/
structure Literal (n : Nat) where
  var : Fin n
  negative : Bool
  deriving DecidableEq

namespace Literal

variable {n : Nat}

def pos (x : Fin n) : Literal n := ⟨x, false⟩

def neg (x : Fin n) : Literal n := ⟨x, true⟩

/-- The literal `k * x` for a unit `k`. -/
def ofUnit (k : Int) (x : Fin n) : Literal n := ⟨x, k < 0⟩

/-- The opposite literal. -/
def bar (i : Literal n) : Literal n := ⟨i.var, !i.negative⟩

def value (v : Fin n → Int) (i : Literal n) : Int := if i.negative then -v i.var else v i.var

def index (i : Literal n) : Fin (2 * n) :=
  ⟨2 * i.var + i.negative.toNat, by
    have := i.var.isLt
    have := Bool.toNat_le i.negative
    omega⟩

def ofIndex (k : Fin (2 * n)) : Literal n := ⟨⟨k / 2, by omega⟩, k.val % 2 == 1⟩

/-- Every literal, by variable, the variable before its negation. -/
def all (n : Nat) : List (Literal n) := (List.finRange (2 * n)).map ofIndex

end Literal

structure Matrix (n : Nat) where
  rows : Vector (Vector Bound (2 * n)) (2 * n)
  deriving DecidableEq

namespace Matrix

variable {n : Nat}

def get (m : Matrix n) (i j : Literal n) : Bound := (m.rows.get i.index).get j.index

def ofFn (f : Literal n → Literal n → Bound) : Matrix n :=
  ⟨Vector.ofFn fun i => Vector.ofFn fun j => f (.ofIndex i) (.ofIndex j)⟩

def set (m : Matrix n) (i j : Literal n) (b : Bound) : Matrix n :=
  ⟨m.rows.set i.index ((m.rows.get i.index).set j.index b j.index.isLt) i.index.isLt⟩

/-- No constraint at all. -/
def top (n : Nat) : Matrix n := ofFn fun i j => if i = j then .finite 0 else .absent

/-- Adds `j - i ≤ c`. -/
def refine (m : Matrix n) (i j : Literal n) (c : Int) : Matrix n :=
  m.set i j (min (m.get i j) (.ofInt c))

/-- Adds `i + j ≤ c` for literals of distinct variables. -/
def addSum (m : Matrix n) (i j : Literal n) (c : Int) : Matrix n :=
  (m.refine j.bar i c).refine i.bar j c

/-- `2 * c` within the signed 128-bit range. -/
def double (c : Int) : Int :=
  if 2 * c < -int128Limit then -int128Limit
  else if int128Limit ≤ 2 * c then int128Limit - 1
  else 2 * c

/-- Adds `i ≤ c`. -/
def addUpper (m : Matrix n) (i : Literal n) (c : Int) : Matrix n := m.refine i.bar i (double c)

/-- Adds `k * x ≤ c` for a non-zero `k`. -/
def addScaled (m : Matrix n) (x : Fin n) (k c : Int) : Matrix n :=
  if 0 < k then m.addUpper (.pos x) (c / k)
  else if k < 0 then m.addUpper (.neg x) (c / -k)
  else m

/-- The negation of the lower end is exact; that of `addIntervalTraced` may overflow. -/
def addInterval (m : Matrix n) (x : Fin n) (a : Interval) : Matrix n :=
  let m := match a.hi with
    | some h => m.addUpper (.pos x) h
    | none => m
  match a.lo with
  | some l => m.addUpper (.neg x) (-l)
  | none => m

/-- The upper bound of a literal. -/
def upper? (m : Matrix n) (i : Literal n) : Option Int := (m.get i.bar i).toInt?.map (· / 2)

/-- The upper bound of `i + j` for literals of distinct variables. -/
def upperSum? (m : Matrix n) (i j : Literal n) : Option Int := (m.get j.bar i).toInt?

def interval (m : Matrix n) (x : Fin n) : Interval :=
  ⟨(m.upper? (.neg x)).map (-·), m.upper? (.pos x)⟩

/-- Drops every constraint on `x`. -/
def forget (m : Matrix n) (x : Fin n) : Matrix n :=
  ofFn fun i j => if i ≠ j ∧ (i.var = x ∨ j.var = x) then .absent else m.get i j

/-- How much a literal grows when `x` grows by `c`. -/
def growth (x : Fin n) (c : Int) (i : Literal n) : Int :=
  if i.var = x then (if i.negative then -c else c) else 0

/-- The constraints after `x := x + c`, moved exactly; `shiftTraced` may overflow. -/
def shift (m : Matrix n) (x : Fin n) (c : Int) : Matrix n :=
  ofFn fun i j => (m.get i j).shift (growth x c j - growth x c i)

/-- Cell by cell the looser bound. -/
def join (a b : Matrix n) : Matrix n :=
  ⟨a.rows.zipWith (fun r s => r.zipWith (max · ·) s) b.rows⟩

/-- Keeps the bounds of `older` that `newer` respects. -/
def widen (older newer : Matrix n) : Matrix n :=
  ⟨older.rows.zipWith (fun r s => r.zipWith (fun o b => if b ≤ o then o else .absent) s) newer.rows⟩

end Matrix

end Lifespan
