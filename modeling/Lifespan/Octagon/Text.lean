import Lifespan.Octagon.Basic

namespace Lifespan

namespace Matrix

variable {n : Nat}

/-- One constraint of the written form. -/
inductive Item (n : Nat) where
  | equals (x : Fin n) (v : Int)
  | within (x : Fin n) (lo hi : Option Int)
  | sum (i j : Literal n) (c : Int)

def rangeItem? (m : Matrix n) (x : Fin n) : Option (Item n) :=
  match m.interval x with
  | ⟨none, none⟩ => none
  | ⟨some l, some h⟩ => some (if l = h then .equals x l else .within x (some l) (some h))
  | ⟨lo, hi⟩ => some (.within x lo hi)

/-- The bound on `i + j`, unless the bounds on `i` and `j` imply it. -/
def sumItem? (m : Matrix n) (i j : Literal n) : Option (Item n) := do
  let c ← m.upperSum? i j
  match Interval.sumEnds (m.upper? i) (m.upper? j) with
  | some implied => if implied ≤ c then none else some (.sum i j c)
  | none => some (.sum i j c)

def signs : List (Bool × Bool) := [(false, false), (false, true), (true, false), (true, true)]

def items (m : Matrix n) : List (Item n) :=
  let vars := List.finRange n
  let ranges := vars.filterMap m.rangeItem?
  let sums := vars.flatMap fun x => (vars.filter (x < ·)).flatMap fun y =>
    signs.filterMap fun (p, q) => m.sumItem? ⟨x, p⟩ ⟨y, q⟩
  ranges ++ sums

def Item.text (name : Fin n → String) : Item n → String
  | .equals x v => name x ++ " == " ++ toString v
  | .within x lo hi =>
    name x ++ " in [" ++ lo.elim "-oo" toString ++ ", " ++ hi.elim "+oo" toString ++ "]"
  | .sum i j c =>
    (if i.negative then "-" else "") ++ name i.var ++
      (if j.negative then " - " else " + ") ++ name j.var ++
      " <= " ++ toString c

end Matrix

def Octagon.text {n : Nat} (name : Fin n → String) (s : Octagon n) : String :=
  match s.closure? with
  | none => "⊥"
  | some m =>
    match m.items with
    | [] => "⊤"
    | items => "\x7b" ++ ", ".intercalate (items.map (Matrix.Item.text name)) ++ "\x7d"

end Lifespan
