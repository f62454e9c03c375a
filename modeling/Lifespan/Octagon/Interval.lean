import Lifespan.Term

namespace Lifespan

structure Interval where
  lo : Option Int
  hi : Option Int
  deriving DecidableEq

namespace Interval

def whole : Interval := ⟨none, none⟩

def point (v : Int) : Interval := ⟨some v, some v⟩

def Contains (a : Interval) (v : Int) : Prop := (∀ l ∈ a.lo, l ≤ v) ∧ ∀ h ∈ a.hi, v ≤ h

def sumEnds : Option Int → Option Int → Option Int
  | some a, some b => signed? int128Limit (a + b)
  | _, _ => none

def add (a b : Interval) : Interval := ⟨sumEnds a.lo b.lo, sumEnds a.hi b.hi⟩

/-- Exact, like all unchecked operations here; `negTraced` may overflow. -/
def neg (a : Interval) : Interval := ⟨a.hi.map (-·), a.lo.map (-·)⟩

def scale (k : Int) (a : Interval) : Interval :=
  let times (v : Int) : Option Int := signed? int128Limit (v * k)
  if k = 0 then point 0
  else if 0 < k then ⟨a.lo.bind times, a.hi.bind times⟩
  else ⟨a.hi.bind times, a.lo.bind times⟩

def leastOf (a b : Int) : Int := if a ≤ b then a else b

def greatestOf (a b : Int) : Int := if a ≤ b then b else a

/-- The span of the four products of the ends. -/
def span (p q r s : Int) : Interval :=
  ⟨some (leastOf (leastOf p q) (leastOf r s)), some (greatestOf (greatestOf p q) (greatestOf r s))⟩

def mul (a b : Interval) : Interval :=
  if a = point 0 ∨ b = point 0 then point 0
  else
    match a.lo, a.hi, b.lo, b.hi with
    | some al, some ah, some bl, some bh =>
      let corner (v : Int) : Option Int := signed? int128Limit v
      match corner (al * bl), corner (al * bh), corner (ah * bl), corner (ah * bh) with
      | some p, some q, some r, some s => span p q r s
      | _, _, _, _ => whole
    | _, _, _, _ => whole

/-- The end that both sides allow. -/
def tighter (choose : Int → Int → Int) : Option Int → Option Int → Option Int
  | some a, some b => some (choose a b)
  | some a, none => some a
  | none, b => b

def inter (a b : Interval) : Interval := ⟨tighter greatestOf a.lo b.lo, tighter leastOf a.hi b.hi⟩

def atLeast (l : Int) (a : Interval) : Bool := a.lo.any (l ≤ ·)

def atMost (h : Int) (a : Interval) : Bool := a.hi.any (· ≤ h)

/-- Whether the ends show that every value is so related to zero. -/
def entails (a : Interval) : Relation → Bool
  | .ge => a.atLeast 0
  | .gt => a.atLeast 1
  | .eq => a = point 0
  | .ne => a.atLeast 1 || a.atMost (-1)

/-- Whether the ends show that no value is so related to zero. -/
def refutes (a : Interval) : Relation → Bool
  | .ge => a.atMost (-1)
  | .gt => a.atMost 0
  | .eq => a.entails .ne
  | .ne => a = point 0

end Interval

end Lifespan
