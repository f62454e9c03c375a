import Lifespan.Proofs.Octagon.Cells
import Mathlib.Logic.Function.Basic

namespace Lifespan

namespace Bound

/-- The quantity `d` is within the bound. -/
def Allows : Bound → Int → Prop
  | finite c, d => d ≤ c
  | absent, _ => True

variable {a b : Bound} {c d e : Int}

@[simp] theorem allows_finite : (finite c).Allows d ↔ d ≤ c := Iff.rfl

@[simp] theorem allows_absent : absent.Allows d := trivial

theorem allows_ofInt (h : d ≤ c) : (ofInt c).Allows d := by
  unfold ofInt
  split
  · exact h
  · exact allows_absent

theorem allows_min : (min a b).Allows d ↔ a.Allows d ∧ b.Allows d := by
  change (Bound.min a b).Allows d ↔ _
  cases a <;> cases b <;> simp only [Bound.min, allows_finite, allows_absent, true_and, and_true]
  split <;> omega

theorem allows_max (h : a.Allows d ∨ b.Allows d) : (max a b).Allows d := by
  change (Bound.max a b).Allows d
  cases a <;> cases b <;> simp only [Bound.max, allows_finite, allows_absent] at h ⊢
  split <;> omega

theorem Allows.mono (h : a.Allows d) (hab : a ≤ b) : b.Allows d := by
  change Bound.le a b = true at hab
  cases a <;> cases b <;> simp only [Bound.le, decide_eq_true_eq, reduceCtorEq] at hab
  · exact Int.le_trans h hab
  · exact allows_absent
  · exact allows_absent

theorem Allows.add (ha : a.Allows d) (hb : b.Allows e) : (a + b).Allows (d + e) := by
  change (Bound.add a b).Allows (d + e)
  cases a <;> cases b <;> simp only [Bound.add, allows_absent]
  exact allows_ofInt (Int.add_le_add ha hb)

theorem Allows.shift (h : a.Allows d) : (a.shift c).Allows (d + c) := by
  cases a with
  | absent => exact allows_absent
  | finite k => exact allows_ofInt (Int.add_le_add_right h c)

theorem allows_even : a.even.Allows (2 * d) ↔ a.Allows (2 * d) := by
  cases a with
  | absent => exact Iff.rfl
  | finite c =>
    change 2 * d ≤ 2 * (c / 2) ↔ 2 * d ≤ c
    omega

theorem Allows.halfSum (ha : a.Allows (2 * d)) (hb : b.Allows (2 * e)) :
    (a.halfSum b).Allows (d + e) := by
  cases a <;> cases b <;> simp only [Bound.halfSum, allows_absent]
  apply allows_ofInt
  rw [allows_finite] at ha hb
  omega

theorem not_allows_of_isNegative (h : a.isNegative = true) (hd : 0 ≤ d) : ¬ a.Allows d := by
  cases a with
  | absent => cases h
  | finite c =>
    have hc : c < 0 := by simpa [isNegative] using h
    rw [allows_finite]
    omega

theorem allows_zero_of_not_isNegative (h : a.isNegative = false) : a.Allows 0 := by
  cases a with
  | absent => exact allows_absent
  | finite c =>
    have hc : 0 ≤ c := by simpa [isNegative] using h
    exact hc

end Bound

namespace Matrix

variable {n : Nat}

/-- The valuation satisfies every constraint of the matrix. -/
def Point (m : Matrix n) (v : Fin n → Int) : Prop :=
  ∀ i j, (m.get i j).Allows (j.value v - i.value v)

variable {m k : Matrix n} {v w : Fin n → Int}

theorem point_top (v : Fin n → Int) : (top n).Point v := by
  intro i j
  rw [top, get_ofFn]
  split
  case isTrue h =>
    subst h
    simp
  case isFalse => exact Bound.allows_absent

theorem Point.refine (h : m.Point v) {i j : Literal n} {c : Int} (hc : j.value v - i.value v ≤ c) :
    (m.refine i j c).Point v := by
  intro k l
  rw [Matrix.refine, get_set]
  split
  case isTrue hkl =>
    obtain ⟨rfl, rfl⟩ := hkl
    exact Bound.allows_min.mpr ⟨h i j, Bound.allows_ofInt hc⟩
  case isFalse => exact h k l

theorem Point.addSum (h : m.Point v) {i j : Literal n} {c : Int} (hc : i.value v + j.value v ≤ c) :
    (m.addSum i j c).Point v := by
  unfold Matrix.addSum
  refine (h.refine ?_).refine ?_
  · rw [Literal.value_bar]
    omega
  · rw [Literal.value_bar]
    omega

theorem le_double {d c : Int} (h : d ≤ c) : (Bound.ofInt (double c)).Allows (2 * d) := by
  unfold double
  split
  · apply Bound.allows_ofInt
    omega
  · split
    · -- too large a bound is none
      have hlimit : ¬ int128Limit - 1 < Bound.limit := by decide
      rw [Bound.ofInt, if_neg hlimit]
      exact Bound.allows_absent
    · apply Bound.allows_ofInt
      omega

theorem Point.addUpper (h : m.Point v) {i : Literal n} {c : Int} (hc : i.value v ≤ c) :
    (m.addUpper i c).Point v := by
  intro k l
  rw [Matrix.addUpper, Matrix.refine, get_set]
  split
  case isTrue hkl =>
    obtain ⟨rfl, rfl⟩ := hkl
    have htwice : i.value v - i.bar.value v = 2 * i.value v := by
      rw [Literal.value_bar]
      omega
    refine Bound.allows_min.mpr ⟨h _ _, ?_⟩
    rw [htwice]
    exact le_double hc
  case isFalse => exact h k l

theorem Point.addScaled (h : m.Point v) {x : Fin n} {k c : Int} (hc : k * v x ≤ c) :
    (m.addScaled x k c).Point v := by
  unfold Matrix.addScaled
  split
  case isTrue hk =>
    apply h.addUpper
    rw [Literal.value_pos]
    exact Int.le_ediv_of_mul_le hk (by rwa [Int.mul_comm])
  case isFalse =>
    split
    case isTrue hk =>
      apply h.addUpper
      rw [Literal.value_neg]
      apply Int.le_ediv_of_mul_le (by omega)
      rwa [Int.neg_mul_neg, Int.mul_comm]
    case isFalse => exact h

theorem Point.addInterval (h : m.Point v) {x : Fin n} {a : Interval} (ha : a.Contains (v x)) :
    (m.addInterval x a).Point v := by
  have hlow : ∀ k : Matrix n, k.Point v → ∀ l, a.lo = some l →
      (k.addUpper (.neg x) (-l)).Point v := by
    intro k hk l hl
    apply hk.addUpper
    rw [Literal.value_neg]
    exact Int.neg_le_neg (ha.1 l hl)
  cases hu : a.hi with
  | none =>
    cases hl : a.lo with
    | none => simpa only [Matrix.addInterval, hu, hl] using h
    | some l => simpa only [Matrix.addInterval, hu, hl] using hlow m h l hl
  | some u =>
    have hhigh := h.addUpper (i := .pos x) (ha.2 u hu)
    cases hl : a.lo with
    | none => simpa only [Matrix.addInterval, hu, hl] using hhigh
    | some l => simpa only [Matrix.addInterval, hu, hl] using hlow _ hhigh l hl

theorem Point.value_le_of_upper? (h : m.Point v) {i : Literal n} {c : Int}
    (hc : m.upper? i = some c) :
    i.value v ≤ c := by
  have hcell := h i.bar i
  unfold upper? at hc
  cases hb : m.get i.bar i with
  | absent => simp [hb, Bound.toInt?] at hc
  | finite d =>
    have hd : d / 2 = c := by simpa [hb, Bound.toInt?] using hc
    rw [hb, Literal.value_bar, Bound.allows_finite] at hcell
    omega

theorem Point.add_le_of_upperSum? (h : m.Point v) {i j : Literal n} {c : Int}
    (hc : m.upperSum? i j = some c) : i.value v + j.value v ≤ c := by
  have hcell := h j.bar i
  unfold upperSum? at hc
  cases hb : m.get j.bar i with
  | absent => simp [hb, Bound.toInt?] at hc
  | finite d =>
    have hd : d = c := by simpa [hb, Bound.toInt?] using hc
    rw [hb, Literal.value_bar, Bound.allows_finite] at hcell
    omega

theorem Point.interval (h : m.Point v) (x : Fin n) : (m.interval x).Contains (v x) := by
  constructor
  · intro l hl
    obtain ⟨c, hc, rfl⟩ := Option.map_eq_some_iff.mp hl
    have hle := h.value_le_of_upper? hc
    rw [Literal.value_neg] at hle
    omega
  · intro u hu
    exact h.value_le_of_upper? hu

theorem value_update_of_ne {x : Fin n} {i : Literal n} (hi : i.var ≠ x) (c : Int) :
    i.value (Function.update v x c) = i.value v := by
  unfold Literal.value
  rw [Function.update_of_ne hi]

/-- A constraint that does not mention `x` holds whatever the value of `x`. -/
theorem Point.forget (h : m.Point v) (x : Fin n) (c : Int) :
    (m.forget x).Point (Function.update v x c) := by
  intro i j
  rw [Matrix.forget, get_ofFn]
  by_cases hij : i = j
  · subst hij
    have hcell := h i i
    rw [Int.sub_self] at hcell ⊢
    simpa using hcell
  · by_cases hx : i.var = x ∨ j.var = x
    · rw [if_pos ⟨hij, hx⟩]
      exact Bound.allows_absent
    · have hne : i.var ≠ x ∧ j.var ≠ x := not_or.mp hx
      rw [if_neg fun hc => hx hc.2, value_update_of_ne hne.1, value_update_of_ne hne.2]
      exact h i j

theorem value_update_add (x : Fin n) (c : Int) (i : Literal n) :
    i.value (Function.update v x (v x + c)) = i.value v + growth x c i := by
  by_cases hi : i.var = x
  · subst hi
    cases hs : i.negative <;> simp [Literal.value, growth, hs]
    omega
  · rw [value_update_of_ne hi, growth, if_neg hi, Int.add_zero]

theorem Point.shift (h : m.Point v) (x : Fin n) (c : Int) :
    (m.shift x c).Point (Function.update v x (v x + c)) := by
  intro i j
  have hdiff : j.value (Function.update v x (v x + c)) - i.value (Function.update v x (v x + c)) =
      j.value v - i.value v + (growth x c j - growth x c i) := by
    rw [value_update_add, value_update_add]
    omega
  rw [Matrix.shift, get_ofFn, hdiff]
  exact (h i j).shift

theorem Point.join (h : m.Point v ∨ k.Point v) : (m.join k).Point v := by
  intro i j
  rw [get_join]
  exact Bound.allows_max (h.imp (fun hm => hm i j) fun hk => hk i j)

theorem Point.widen (h : m.Point v ∨ k.Point v) : (m.widen k).Point v := by
  intro i j
  rw [get_widen]
  split
  case isTrue hle =>
    rcases h with hm | hk
    · exact hm i j
    · exact (hk i j).mono hle
  case isFalse => exact Bound.allows_absent

end Matrix

end Lifespan
