import Lifespan.Octagon.Basic
import Lifespan.Proofs.Octagon.Linear
import Lifespan.Proofs.Octagon.Points
import Mathlib.Algebra.Order.Ring.Int

namespace Lifespan

theorem signed?_eq_some {limit a b : Int} (h : signed? limit a = some b) : b = a := by
  unfold signed? at h
  split at h
  · exact (Option.some.inj h).symm
  · cases h

namespace Interval

variable {a b : Interval} {x y k : Int}

theorem contains_point (x : Int) : (point x).Contains x := by
  simp [Contains, point]

theorem contains_whole (x : Int) : whole.Contains x := by
  simp [Contains, whole]

theorem Contains.eq_of_point (h : (point k).Contains x) : x = k :=
  Int.le_antisymm (h.2 k rfl) (h.1 k rfl)

theorem sumEnds_eq_some {p q : Option Int} {c : Int} (h : sumEnds p q = some c) :
    ∃ r s, p = some r ∧ q = some s ∧ c = r + s := by
  cases p with
  | none => cases h
  | some r =>
    cases q with
    | none => cases h
    | some s => exact ⟨r, s, rfl, rfl, signed?_eq_some h⟩

theorem Contains.add (ha : a.Contains x) (hb : b.Contains y) : (a.add b).Contains (x + y) := by
  constructor
  · intro l hl
    obtain ⟨r, s, hr, hs, rfl⟩ := sumEnds_eq_some hl
    exact Int.add_le_add (ha.1 r hr) (hb.1 s hs)
  · intro u hu
    obtain ⟨r, s, hr, hs, rfl⟩ := sumEnds_eq_some hu
    exact Int.add_le_add (ha.2 r hr) (hb.2 s hs)

theorem Contains.neg (ha : a.Contains x) : a.neg.Contains (-x) := by
  constructor
  · intro l hl
    obtain ⟨u, hu, rfl⟩ := Option.map_eq_some_iff.mp hl
    exact Int.neg_le_neg (ha.2 u hu)
  · intro u hu
    obtain ⟨l, hl, rfl⟩ := Option.map_eq_some_iff.mp hu
    exact Int.neg_le_neg (ha.1 l hl)

theorem Contains.scale (ha : a.Contains x) (k : Int) : (a.scale k).Contains (k * x) := by
  unfold Interval.scale
  split
  case isTrue hk =>
    rw [hk, zero_mul]
    exact contains_point 0
  case isFalse =>
    split
    case isTrue hk =>
      constructor
      · intro l hl
        obtain ⟨c, hc, hs⟩ := Option.bind_eq_some_iff.mp hl
        rw [signed?_eq_some hs, mul_comm]
        exact Int.mul_le_mul_of_nonneg_left (ha.1 c hc) hk.le
      · intro u hu
        obtain ⟨c, hc, hs⟩ := Option.bind_eq_some_iff.mp hu
        rw [signed?_eq_some hs, mul_comm c]
        exact Int.mul_le_mul_of_nonneg_left (ha.2 c hc) hk.le
    case isFalse hzero hpos =>
      have hk : k ≤ 0 := Int.not_lt.mp hpos
      constructor
      · intro l hl
        obtain ⟨c, hc, hs⟩ := Option.bind_eq_some_iff.mp hl
        rw [signed?_eq_some hs, mul_comm]
        exact Int.mul_le_mul_of_nonpos_left hk (ha.2 c hc)
      · intro u hu
        obtain ⟨c, hc, hs⟩ := Option.bind_eq_some_iff.mp hu
        rw [signed?_eq_some hs, mul_comm c]
        exact Int.mul_le_mul_of_nonpos_left hk (ha.1 c hc)

theorem leastOf_le (p q : Int) : leastOf p q ≤ p ∧ leastOf p q ≤ q := by
  unfold leastOf
  split <;> omega

theorem le_greatestOf (p q : Int) : p ≤ greatestOf p q ∧ q ≤ greatestOf p q := by
  unfold greatestOf
  split <;> omega

/-- A product lies between the products of the other factor with the ends. -/
theorem mul_between {l u x : Int} (hl : l ≤ x) (hu : x ≤ u) (y : Int) :
    (l * y ≤ x * y ∧ x * y ≤ u * y) ∨ (u * y ≤ x * y ∧ x * y ≤ l * y) := by
  rcases Int.le_total 0 y with hy | hy
  · exact .inl ⟨Int.mul_le_mul_of_nonneg_right hl hy, Int.mul_le_mul_of_nonneg_right hu hy⟩
  · exact .inr ⟨Int.mul_le_mul_of_nonpos_right hu hy, Int.mul_le_mul_of_nonpos_right hl hy⟩

theorem contains_span {al ah bl bh : Int} (hx : al ≤ x ∧ x ≤ ah) (hy : bl ≤ y ∧ y ≤ bh) :
    (span (al * bl) (al * bh) (ah * bl) (ah * bh)).Contains (x * y) := by
  -- first one factor moves to its ends, then the other
  have hxy := mul_between hx.1 hx.2 y
  have hal := mul_between hy.1 hy.2 al
  have hah := mul_between hy.1 hy.2 ah
  rw [mul_comm bl, mul_comm y, mul_comm bh] at hal hah
  have hlow := leastOf_le (al * bl) (al * bh)
  have hlow' := leastOf_le (ah * bl) (ah * bh)
  have hleast := leastOf_le (leastOf (al * bl) (al * bh)) (leastOf (ah * bl) (ah * bh))
  have hhigh := le_greatestOf (al * bl) (al * bh)
  have hhigh' := le_greatestOf (ah * bl) (ah * bh)
  have hgreatest := le_greatestOf (greatestOf (al * bl) (al * bh)) (greatestOf (ah * bl) (ah * bh))
  constructor
  · intro l hl
    obtain rfl := Option.some.inj hl
    omega
  · intro u hu
    obtain rfl := Option.some.inj hu
    omega

theorem Contains.mul (ha : a.Contains x) (hb : b.Contains y) : (a.mul b).Contains (x * y) := by
  unfold Interval.mul
  split
  case isTrue hzero =>
    have hxy : x * y = 0 := by
      rcases hzero with rfl | rfl
      · rw [ha.eq_of_point, zero_mul]
      · rw [hb.eq_of_point, mul_zero]
    rw [hxy]
    exact contains_point 0
  case isFalse =>
    split
    case h_1 al ah bl bh hal hah hbl hbh =>
      dsimp only
      split
      case h_1 p q r s hp hq hr hs =>
        rw [signed?_eq_some hp, signed?_eq_some hq, signed?_eq_some hr, signed?_eq_some hs]
        exact contains_span ⟨ha.1 al hal, ha.2 ah hah⟩ ⟨hb.1 bl hbl, hb.2 bh hbh⟩
      case h_2 => exact contains_whole _
    case h_2 => exact contains_whole _

theorem tighter_cases {choose : Int → Int → Int} {p q : Option Int} {c : Int}
    (h : tighter choose p q = some c) :
    (∃ r s, p = some r ∧ q = some s ∧ choose r s = c) ∨ p = some c ∨ q = some c := by
  cases p with
  | none => exact .inr (.inr h)
  | some r =>
    cases q with
    | none => exact .inr (.inl h)
    | some s => exact .inl ⟨r, s, rfl, rfl, Option.some.inj h⟩

theorem Contains.inter (ha : a.Contains x) (hb : b.Contains x) : (a.inter b).Contains x := by
  constructor
  · intro l hl
    rcases tighter_cases hl with ⟨r, s, hr, hs, rfl⟩ | h | h
    · have hrx := ha.1 r hr
      have hsx := hb.1 s hs
      unfold greatestOf
      split <;> omega
    · exact ha.1 l h
    · exact hb.1 l h
  · intro u hu
    rcases tighter_cases hu with ⟨r, s, hr, hs, rfl⟩ | h | h
    · have hrx := ha.2 r hr
      have hsx := hb.2 s hs
      unfold leastOf
      split <;> omega
    · exact ha.2 u h
    · exact hb.2 u h

theorem Contains.le_of_atLeast (ha : a.Contains x) (h : a.atLeast k = true) : k ≤ x := by
  unfold atLeast at h
  cases hl : a.lo with
  | none => simp [hl] at h
  | some l =>
    have hk : k ≤ l := by simpa [hl] using h
    exact Int.le_trans hk (ha.1 l hl)

theorem Contains.le_of_atMost (ha : a.Contains x) (h : a.atMost k = true) : x ≤ k := by
  unfold atMost at h
  cases hu : a.hi with
  | none => simp [hu] at h
  | some u =>
    have hk : u ≤ k := by simpa [hu] using h
    exact Int.le_trans (ha.2 u hu) hk

theorem Contains.eq_zero (ha : a.Contains x) (h : a = point 0) : x = 0 := by
  subst h
  exact ha.eq_of_point

/-- What the ends show holds of every value. -/
theorem Contains.holds_of_entails (ha : a.Contains x) {r : Relation} (h : a.entails r = true) :
    r.Holds x := by
  cases r with
  | ge => exact ha.le_of_atLeast h
  | gt => exact ha.le_of_atLeast h
  | eq => exact ha.eq_zero (of_decide_eq_true h)
  | ne =>
    change x ≠ 0
    rcases Bool.or_eq_true_iff.mp h with h | h
    · have hx := ha.le_of_atLeast h
      omega
    · have hx := ha.le_of_atMost h
      omega

theorem Contains.not_holds_of_refutes (ha : a.Contains x) {r : Relation} (h : a.refutes r = true) :
    ¬ r.Holds x := by
  cases r with
  | ge =>
    have hx := ha.le_of_atMost h
    change ¬ 0 ≤ x
    omega
  | gt =>
    have hx := ha.le_of_atMost h
    change ¬ 0 < x
    omega
  | eq => exact ha.holds_of_entails (r := .ne) h
  | ne => exact not_not_intro (ha.eq_zero (of_decide_eq_true h))

end Interval

namespace Matrix

open Linear

variable {n : Nat} {m : Matrix n} {v : Fin n → Int}

theorem Point.sumOf (h : m.Point v) (l : List (Fin n × Int)) :
    (m.sumOf l).Contains (sumValue v l) := by
  have hfold : ∀ (l : List (Fin n × Int)) (a : Interval) (c : Int), a.Contains c →
      (l.foldl (fun acc s => acc.add ((m.interval s.1).scale s.2)) a).Contains
        (c + sumValue v l) := by
    intro l
    induction l with
    | nil =>
      intro a c ha
      simpa using ha
    | cons s l ih =>
      intro a c ha
      rw [List.foldl_cons, sumValue_cons, ← add_assoc]
      exact ih _ _ (ha.add ((h.interval s.1).scale s.2))
  have hsum := hfold l (.point 0) 0 (Interval.contains_point 0)
  rw [zero_add] at hsum
  exact hsum

theorem unitPair?_eq_some {l : List (Fin n × Int)} {s t : Fin n × Int}
    (h : unitPair? l = some (s, t)) :
    l = [s, t] ∧ s.2.natAbs = 1 ∧ t.2.natAbs = 1 := by
  unfold unitPair? at h
  split at h
  · split at h
    case isTrue hu =>
      cases h
      exact ⟨rfl, hu⟩
    case isFalse => cases h
  · cases h

theorem natAbs_neg_eq_one {k : Int} (h : k.natAbs = 1) : (-k).natAbs = 1 := by
  rwa [Int.natAbs_neg]

/-- The bounds between two variables hold of their sum. -/
theorem Point.unitPair (h : m.Point v) {x y : Fin n} {k l : Int} (hk : k.natAbs = 1)
    (hl : l.natAbs = 1) :
    (⟨(m.upperSum? (.ofUnit (-k) x) (.ofUnit (-l) y)).map (-·),
      m.upperSum? (.ofUnit k x) (.ofUnit l y)⟩ : Interval).Contains (k * v x + l * v y) := by
  constructor
  · intro c hc
    obtain ⟨d, hd, rfl⟩ := Option.map_eq_some_iff.mp hc
    have hle := h.add_le_of_upperSum? hd
    rw [Literal.value_ofUnit (natAbs_neg_eq_one hk), Literal.value_ofUnit (natAbs_neg_eq_one hl),
      neg_mul, neg_mul] at hle
    change -d ≤ _
    omega
  · intro c hc
    have hle := h.add_le_of_upperSum? hc
    rwa [Literal.value_ofUnit hk, Literal.value_ofUnit hl] at hle

theorem Point.range (h : m.Point v) (f : Linear n) : (m.range f).Contains (f.eval v) := by
  rw [eval_eq_sumValue]
  unfold Matrix.range
  apply Interval.Contains.add _ (Interval.contains_point f.constant)
  split
  case h_1 x k y l hpair =>
    obtain ⟨hlist, hk, hl⟩ := unitPair?_eq_some hpair
    apply Interval.Contains.inter
    · have hsum := h.unitPair (x := x) (y := y) hk hl
      simpa [hlist] using hsum
    · exact h.sumOf _
  case h_2 => exact h.sumOf _

theorem Point.termRange (h : m.Point v) (t : Term (Fin n)) :
    (m.termRange t).Contains (t.eval v) := by
  induction t with
  | const c => exact Interval.contains_point c
  | var x => exact h.interval x
  | add l r ihl ihr => exact ihl.add ihr
  | sub l r ihl ihr =>
    have hsub := ihl.add ihr.neg
    rwa [← sub_eq_add_neg] at hsub
  | mul l r ihl ihr => exact ihl.mul ihr

theorem Point.rangeOf (h : m.Point v) (t : Term (Fin n)) : (m.rangeOf t).Contains (t.eval v) := by
  unfold Matrix.rangeOf
  cases hf : t.linear? with
  | some f =>
    rw [← Term.eval_linear? v hf]
    exact h.range f
  | none => exact h.termRange t

end Matrix

end Lifespan
