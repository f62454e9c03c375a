namespace Lifespan

/-- A finite double, identified by its bit pattern. -/
structure Double where
  bits : UInt64
  deriving DecidableEq

namespace Double

def ofFloat (x : Float) : Double := ⟨x.toBits⟩

def powerOfTen (e : Nat) : Float := Float.ofScientific 1 false e

def tenTo (k : Nat) : Nat := Nat.pow 10 k

/-- `x * 10 ^ e`, or none beyond the largest double. Exponents below -308 are worked off
in steps. -/
def scale (x : Float) (e : Int) : Option Float :=
  if e.natAbs ≤ 308 then
    let y := if 0 ≤ e then x * powerOfTen e.natAbs else x / powerOfTen e.natAbs
    if y.isInf then none else some y
  else if x == 0 then some x
  else if 0 ≤ e then none
  else scale (x / powerOfTen 308) (e + 308)
termination_by e.natAbs
decreasing_by omega

/-- The double written as `significand * 10 ^ exponent`. -/
def ofDecimal? (negative : Bool) (significand : UInt64) (exponent : Int) : Option Double :=
  (scale significand.toFloat exponent).map fun x => ofFloat (if negative then -x else x)

/-- The least significand of a normal double. -/
def hiddenBit : Nat := 0x10000000000000

/-- The magnitude as `m * 2 ^ q`. -/
def magnitude (x : Double) : Nat × Int :=
  let fraction := (x.bits &&& 0xFFFFFFFFFFFFF).toNat
  let biased := ((x.bits >>> 52) &&& 0x7FF).toNat
  if biased = 0 then (fraction, -1074) else (hiddenBit + fraction, biased - 1075)

def isNegative (x : Double) : Bool := x.bits >>> 63 == 1

/-- The fraction `num / den` stands for `m * 2 ^ q`. -/
def fraction (m : Nat) (q : Int) : Nat × Nat :=
  if 0 ≤ q then (m <<< q.toNat, 1) else (m, 1 <<< (-q).toNat)

/-- The greatest `k` with `10 ^ k ≤ num / den`, for a positive fraction above `10 ^ (-400)`. -/
def leadingPosition (num den : Nat) : Int :=
  if den ≤ num then (Nat.toDigits 10 (num / den)).length - 1
  else - (((List.range 400).find? fun j => den ≤ num * tenTo j).getD 400 : Nat)

/-- `num / den` in units of `10 ^ p`, rounded down, and whether anything was cut off. -/
def inUnits (num den : Nat) (p : Int) : Nat × Bool :=
  let n := if 0 ≤ p then num else num * tenTo (-p).toNat
  let d := if 0 ≤ p then den * tenTo p.toNat else den
  (n / d, n % d ≠ 0)

/-- The fraction `n * 10 ^ p`. -/
def onGrid (n : Nat) (p : Int) : Nat × Nat :=
  if 0 ≤ p then (n * tenTo p.toNat, 1) else (n, tenTo (-p).toNat)

/-- The fewest digits of a decimal that reads back as the positive double `m * 2 ^ q`, the nearest
such decimal, and the position of its last digit. A tie goes up. -/
def shortest (m : Nat) (q : Int) : Nat × Int :=
  let (num, den) := fraction (4 * m) (q - 2)
  let below := if m = hiddenBit ∧ -1074 < q then 1 else 2
  let (lowNum, _) := fraction (4 * m - below) (q - 2)
  let (highNum, _) := fraction (4 * m + 2) (q - 2)
  let inside (n : Nat) (p : Int) : Bool :=
    let (a, b) := onGrid n p
    if m % 2 = 0 then lowNum * b ≤ a * den && a * den ≤ highNum * b
    else lowNum * b < a * den && a * den < highNum * b
  let k := leadingPosition num den
  let candidate (count : Nat) : Option (Nat × Int) :=
    let p := k - count + 1
    let (n, cut) := inUnits num den p
    let down := inside n p
    let up := cut && inside (n + 1) p
    let (mid, one) := onGrid (2 * n + 1) p
    match down, up with
    | false, false => none
    | true, false => some (n, p)
    | false, true => some (n + 1, p)
    | true, true => some (if 2 * num * one < mid * den then n else n + 1, p)
  ((List.range 17).findSome? fun count => candidate (count + 1)).getD (0, 0)

/-- Digits without trailing zeros, and the position of the first one. -/
def digits (n : Nat) (p : Int) : List Char × Int :=
  let all := Nat.toDigits 10 n
  let kept := (all.reverse.dropWhile (· == '0')).reverse
  (kept, p + all.length - 1)

/-- Plain notation from `10 ^ (-4)` up to `10 ^ 16`, with at least one decimal; else one digit
before the point and an exponent. -/
def written (ds : List Char) (first : Int) : String :=
  let zeros (n : Nat) : List Char := List.replicate n '0'
  if first < -4 ∨ 16 ≤ first then
    let tail := ds.drop 1
    String.ofList (ds.take 1 ++ (if tail.isEmpty then [] else '.' :: tail)) ++ "e" ++ toString first
  else if first < 0 then
    String.ofList (['0', '.'] ++ zeros (-first - 1).toNat ++ ds)
  else
    let whole := first.toNat + 1
    let tail := if ds.length ≤ whole then ['0'] else ds.drop whole
    String.ofList (ds.take whole ++ zeros (whole - ds.length) ++ '.' :: tail)

def text (x : Double) : String :=
  let (m, q) := x.magnitude
  let body :=
    if m = 0 then "0.0"
    else
      let (n, p) := shortest m q
      let (ds, first) := digits n p
      written ds first
  if x.isNegative then "-" ++ body else body

end Double

end Lifespan
