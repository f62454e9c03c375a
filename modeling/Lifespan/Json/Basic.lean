import Lifespan.Double

namespace Lifespan

/-- A number as written. `fraction` is empty when there is no decimal point. -/
structure Numeral where
  negative : Bool
  whole : List Char
  fraction : List Char
  exponent : Option Int

inductive Json where
  | null
  | bool (b : Bool)
  | number (n : Numeral)
  | string (text : Option String)
  | array (items : List Json)
  | object (fields : List (Option String × Json))

def digitsValue (ds : List Char) : Nat := ds.foldl (fun n c => 10 * n + (c.toNat - '0'.toNat)) 0

namespace Numeral

/-- An integer has neither fraction nor exponent, and a negative zero is not one. -/
def toInt? (n : Numeral) : Option Int :=
  let magnitude := digitsValue n.whole
  if n.fraction.isEmpty && n.exponent.isNone && !(n.negative && magnitude == 0) then
    some (if n.negative then -magnitude else magnitude)
  else none

def fitsWord (n : Nat) : Bool := n < UInt64.size

/-- Leading digits of the whole part that fit a 64-bit word, and the number of digits dropped. -/
def leadingWhole : Nat → List Char → Nat × Nat
  | acc, [] => (acc, 0)
  | acc, c :: cs =>
    let next := 10 * acc + digitsValue [c]
    if fitsWord next then leadingWhole next cs else (acc, cs.length + 1)

/-- Continues with digits of the fraction as long as they fit, and counts them. -/
def leadingFraction : Nat → List Char → Nat × Nat
  | acc, [] => (acc, 0)
  | acc, c :: cs =>
    let next := 10 * acc + digitsValue [c]
    if fitsWord next then
      let (value, count) := leadingFraction next cs
      (value, count + 1)
    else (acc, 0)

/-- None if the number is beyond the largest double. -/
def toDouble? (n : Numeral) : Option Double :=
  let (whole, dropped) := leadingWhole 0 n.whole
  let (significand, taken) := leadingFraction whole n.fraction
  Double.ofDecimal? n.negative significand.toUInt64 (n.exponent.getD 0 + dropped - taken)

end Numeral

namespace Json

/-- Of the fields with one key the last. -/
def lastFields (fields : List (Option String × Json)) : List (Option String × Json) :=
  fields.foldr (fun e rest => if rest.any (·.1 == e.1) then rest else e :: rest) []

mutual

/-- The document with repeated keys collapsed: the last value of a key counts. -/
def collapse : Json → Json
  | .array items => .array (collapseItems items)
  | .object fields => .object (lastFields (collapseFields fields))
  | j => j

def collapseItems : List Json → List Json
  | [] => []
  | j :: rest => collapse j :: collapseItems rest

def collapseFields : List (Option String × Json) → List (Option String × Json)
  | [] => []
  | (k, j) :: rest => (k, collapse j) :: collapseFields rest

end

def text? : Json → Option String
  | .string text => text
  | _ => none

def bool? : Json → Option Bool
  | .bool b => some b
  | _ => none

def int? : Json → Option Int
  | .number n => n.toInt?
  | _ => none

/-- A signed 32-bit integer. -/
def int32? (j : Json) : Option Int :=
  j.int?.filter fun v => -0x80000000 ≤ v && v < 0x80000000

/-- An unsigned 64-bit integer. -/
def index? (j : Json) : Option Nat :=
  (j.int?.filter fun v => 0 ≤ v && v.toNat < UInt64.size).map Int.toNat

def double? : Json → Option Double
  | .number n => n.toDouble?
  | _ => none

end Json

end Lifespan
