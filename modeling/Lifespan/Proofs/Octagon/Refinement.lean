import Lifespan.Proofs.Octagon.Evaluation
import Lifespan.Proofs.Octagon.Representation
import Lifespan.Proofs.Operations
import Mathlib.Algebra.Order.Group.Abs

namespace Lifespan

variable {n : Nat} {v : Fin n → Int}

theorem Bound.allows_ofInt_iff {c d : Int} (hc : c < limit) : (ofInt c).Allows d ↔ d ≤ c := by
  rw [ofInt, if_pos hc, allows_finite]

namespace Linear

variable {f : Linear n}

/-- The form is a constant, `k * x + e` or `±x ± y + e`. -/
inductive IsOctagonal (f : Linear n) : Prop
  | constant (h : f.summands = [])
  | scaled (x : Fin n) (k : Int) (h : f.summands = [(x, k)])
  | pair (x y : Fin n) (k l : Int) (hk : k.natAbs = 1) (hl : l.natAbs = 1)
    (h : f.summands = [(x, k), (y, l)])

theorem summands_negate (f : Linear n) :
    f.negate.summands = f.summands.map fun s => (s.1, -s.2) := by
  unfold summands
  rw [List.map_filterMap]
  apply List.filterMap_congr
  intro x _
  by_cases hx : f.coeffs.get x = 0 <;> simp [negate, hx]

theorem IsOctagonal.offset (h : f.IsOctagonal) (c : Int) : (f.offset c).IsOctagonal := by
  cases h with
  | constant h => exact .constant h
  | scaled x k h => exact .scaled x k h
  | pair x y k l hk hl h => exact .pair x y k l hk hl h

theorem IsOctagonal.negate (h : f.IsOctagonal) : f.negate.IsOctagonal := by
  have hneg := f.summands_negate
  cases h with
  | constant h => exact .constant (by rw [hneg, h]; rfl)
  | scaled x k h => exact .scaled x (-k) (by rw [hneg, h]; rfl)
  | pair x y k l hk hl h =>
    exact .pair x y (-k) (-l) (by rwa [Int.natAbs_neg]) (by rwa [Int.natAbs_neg])
      (by rw [hneg, h]; rfl)

end Linear

namespace Matrix

open Linear

variable {m k : Matrix n} {i j : Literal n} {x : Fin n} {c : Int} {f : Linear n}

theorem point_refine_iff (hc : c < Bound.limit) :
    (m.refine i j c).Point v ↔ m.Point v ∧ j.value v - i.value v ≤ c := by
  constructor
  · intro h
    refine ⟨h.of_refine, ?_⟩
    have hcell := h i j
    rw [refine, get_set, if_pos ⟨rfl, rfl⟩, Bound.allows_min, Bound.allows_ofInt_iff hc] at hcell
    exact hcell.2
  · rintro ⟨h, hle⟩
    exact h.refine hle

theorem point_addSum_iff (hc : c < Bound.limit) :
    (m.addSum i j c).Point v ↔ m.Point v ∧ i.value v + j.value v ≤ c := by
  rw [addSum, point_refine_iff hc, point_refine_iff hc, Literal.value_bar,
    Literal.value_bar, and_assoc]
  apply and_congr_right
  intro _
  omega

theorem double_eq (hc : 2 * |c| < Bound.limit) : double c = 2 * c := by
  have hlimit : Bound.limit < int128Limit := by decide
  have hlow := neg_abs_le c
  have hhigh := le_abs_self c
  unfold double
  rw [if_neg (by omega), if_neg (by omega)]

/-- Neither end of the range of 128-bit integers is in the way of a doubled bound below
the limit. -/
theorem point_addUpper_iff (hc : 2 * |c| < Bound.limit) :
    (m.addUpper i c).Point v ↔ m.Point v ∧ i.value v ≤ c := by
  have hhigh := le_abs_self c
  rw [addUpper, double_eq hc, point_refine_iff (by omega), Literal.value_bar]
  apply and_congr_right
  intro _
  omega

theorem point_addScaled_iff {d : Int} (hd : d ≠ 0) (hc : 2 * |c| < Bound.limit) :
    (m.addScaled x d c).Point v ↔ m.Point v ∧ d * v x ≤ c := by
  unfold addScaled
  rcases lt_or_gt_of_ne hd with hneg | hpos
  · have hsmall := Int.abs_ediv_le_abs c (-d)
    rw [if_neg (by omega), if_pos hneg, point_addUpper_iff (by omega), Literal.value_neg,
      Int.le_ediv_iff_mul_le (by omega), Int.neg_mul_neg, Int.mul_comm]
  · have hsmall := Int.abs_ediv_le_abs c d
    rw [if_pos hpos, point_addUpper_iff (by omega), Literal.value_pos, Int.le_ediv_iff_mul_le
      hpos, Int.mul_comm]

/-- A point is left exactly if the form is not negative there. -/
theorem point_addNonneg_iff (hf : f.IsOctagonal) (hc : 2 * |f.constant| < Bound.limit) :
    (∃ k, m.addNonneg f = some k ∧ k.Point v) ↔ m.Point v ∧ 0 ≤ f.eval v := by
  constructor
  · rintro ⟨k, hk, hv⟩
    have hm := hv.of_addNonneg hk
    refine ⟨hm, ?_⟩
    have hhigh := le_abs_self f.constant
    have hnonneg := abs_nonneg f.constant
    rw [eval_eq_sumValue]
    unfold addNonneg at hk
    split at hk
    · cases hk
    · cases hf with
      | constant h =>
        rw [h] at hk ⊢
        simp only [List.map_nil, unitPair?] at hk
        split at hk
        · simpa using ‹0 ≤ f.constant›
        · cases hk
      | scaled x d h =>
        simp only [h, List.map_cons, List.map_nil, unitPair?] at hk
        obtain rfl := Option.some.inj hk
        have hmem : (x, d) ∈ f.summands := by simp [h]
        have hd := (mem_summands.mp hmem).2
        have hle := ((point_addScaled_iff (by omega) hc).mp hv).2
        rw [Int.neg_mul] at hle
        simp only [h, sumValue_cons, sumValue_nil]
        omega
      | pair x y d e hd he h =>
        have hd' := natAbs_neg_eq_one hd
        have he' := natAbs_neg_eq_one he
        simp only [h, List.map_cons, List.map_nil, unitPair?, hd', he', and_self, if_true] at hk
        obtain rfl := Option.some.inj hk
        have hle := ((point_addSum_iff (by omega)).mp hv).2
        rw [Literal.value_ofUnit hd', Literal.value_ofUnit he', Int.neg_mul, Int.neg_mul] at hle
        simp only [h, sumValue_cons, sumValue_nil]
        omega
  · rintro ⟨hm, hle⟩
    exact hm.addNonneg hle

theorem point_addLinear_iff (hf : f.IsOctagonal) {r : Relation} (hr : r ≠ .ne)
    (hc : 2 * (|f.constant| + 1) < Bound.limit) :
    (∃ k, m.addLinear f r = some k ∧ k.Point v) ↔ m.Point v ∧ r.Holds (f.eval v) := by
  cases r with
  | ge => exact point_addNonneg_iff hf (by omega)
  | gt =>
    have hlow := neg_abs_le f.constant
    have hhigh := le_abs_self f.constant
    have hstrict : |f.constant + -1| ≤ |f.constant| + 1 := abs_le.mpr ⟨by omega, by omega⟩
    have hiff := point_addNonneg_iff (m := m) (v := v) (hf.offset (-1)) (by
      change 2 * |f.constant + -1| < Bound.limit
      omega)
    rw [eval_offset] at hiff
    apply hiff.trans
    apply and_congr_right
    intro _
    change 0 ≤ f.eval v + -1 ↔ 0 < f.eval v
    omega
  | eq =>
    -- the second bound is added to a matrix that has not been closed since the first
    have hback : ∀ k : Matrix n, (∃ l, k.addNonneg f.negate = some l ∧ l.Point v) ↔
        k.Point v ∧ 0 ≤ f.negate.eval v := by
      intro k
      apply point_addNonneg_iff hf.negate
      change 2 * |-f.constant| < Bound.limit
      rw [abs_neg]
      omega
    have hforth := point_addNonneg_iff (m := m) (v := v) hf (by omega)
    have hzero : f.eval v = 0 ↔ 0 ≤ f.eval v ∧ 0 ≤ f.negate.eval v := by
      rw [eval_negate]
      omega
    change _ ↔ m.Point v ∧ f.eval v = 0
    rw [hzero, ← and_assoc, ← hforth]
    constructor
    · rintro ⟨l, hl, hv⟩
      obtain ⟨k, hk, hl⟩ := Option.bind_eq_some_iff.mp hl
      obtain ⟨hkv, hle⟩ := (hback k).mp ⟨l, hl, hv⟩
      exact ⟨⟨k, hk, hkv⟩, hle⟩
    · rintro ⟨⟨k, hk, hkv⟩, hle⟩
      obtain ⟨l, hl, hv⟩ := (hback k).mpr ⟨hkv, hle⟩
      exact ⟨l, Option.bind_eq_some_iff.mpr ⟨k, hk, hl⟩, hv⟩
  | ne => exact absurd rfl hr

end Matrix

namespace Octagon

variable {s : Octagon n}

theorem point_meet_linear {c : Constraint (Fin n)} {f : Linear n} (hf : c.term.linear? = some f) :
    (s.meet c).Point v ↔
      ∃ m, s.closure? = some m ∧ ∃ k, m.addLinear f c.relation = some k ∧ k.Point v := by
  unfold meet
  cases s.closure? with
  | none => simpa using not_point_empty
  | some m =>
    simp only [hf, Option.some.injEq, exists_eq_left']
    cases m.addLinear f c.relation with
    | none => simpa using not_point_empty
    | some k => simpa using point_ofMatrix

/-- Meeting an octagon with a comparison of an octagonal form with zero keeps exactly the points
that satisfy it. -/
theorem meet_exact (s : Octagon n) (c : Constraint (Fin n)) (f : Linear n)
    (hf : c.term.linear? = some f) (hoct : f.IsOctagonal) (hrel : c.relation ≠ .ne)
    (hconst : |f.constant| < 2 ^ 122) (v : Fin n → Int) :
    (s.meet c).Point v ↔ s.Point v ∧ c.Holds v := by
  have hsmall : 2 * (|f.constant| + 1) < Bound.limit := by
    have hlimit : (2 : Int) ^ 124 < Bound.limit := by decide
    omega
  have hadd : ∀ m : Matrix n, (∃ k, m.addLinear f c.relation = some k ∧ k.Point v) ↔
      m.Point v ∧ c.Holds v := by
    intro m
    rw [Matrix.point_addLinear_iff hoct hrel hsmall, Term.eval_linear? v hf]
    rfl
  rw [point_meet_linear hf, point_iff_closure?]
  simp only [hadd, ← and_assoc, exists_and_right]

/-- `x + y = 1`. -/
def oddSum : Octagon 2 := (top 2).meet ⟨.sub (.add (.var xVar) (.var yVar)) (.const 1), .eq⟩

/-- A sum that is odd has points, but none at which the summands are equal, although halves
would do. -/
theorem meet_exact_oddSum :
    oddSum.Point (fun x => if x = xVar then 1 else 0) ∧
    ∀ v, ¬ (oddSum.meet ⟨.sub (.var xVar) (.var yVar), .eq⟩).Point v := by
  have hsum :=
    meet_exact (top 2) ⟨.sub (.add (.var xVar) (.var yVar)) (.const 1), .eq⟩ ⟨#v[1, 1], -1⟩
    (by decide +kernel) (.pair xVar yVar 1 1 rfl rfl (by decide +kernel)) (by decide) (by decide)
  have hequal := meet_exact oddSum ⟨.sub (.var xVar) (.var yVar), .eq⟩ ⟨#v[1, -1], 0⟩
    (by decide +kernel) (.pair xVar yVar 1 (-1) rfl rfl (by decide +kernel)) (by decide) (by decide)
  refine ⟨(hsum _).mpr ⟨point_top _, rfl⟩, ?_⟩
  intro v hv
  obtain ⟨hodd, hsame⟩ := (hequal v).mp hv
  obtain ⟨-, hone⟩ := (hsum v).mp hodd
  change v xVar + v yVar - 1 = 0 at hone
  change v xVar - v yVar = 0 at hsame
  omega

end Octagon

end Lifespan
