import Lifespan.Proofs.Consistency
import Lifespan.Proofs.Octagon.Closure
import Lifespan.Proofs.Octagon.Ranges

namespace Lifespan

variable {n : Nat} {v : Fin n → Int}

namespace Matrix

open Linear

variable {m k : Matrix n}

/-- Each variable is bounded by what the others leave of the sum. -/
theorem Point.addSpread (h : m.Point v) {l : List (Fin n × Int)}
    (hl : (l.map Prod.fst).Nodup) {c : Int} (hc : sumValue v l ≤ c) :
    (m.addSpread l c).Point v := by
  refine List.foldlRecOn (motive := fun k : Matrix n => k.Point v) l _ h ?_
  rintro m hm ⟨x, k⟩ hmem
  dsimp only
  cases hlo : (m.sumOf (l.filter (·.1 ≠ x))).lo with
  | some lo =>
    have hsplit := sumValue_eq_add_filter v hl hmem
    have hrest := (hm.sumOf (l.filter (·.1 ≠ x))).1 lo hlo
    apply hm.addScaled
    omega
  | none => exact hm

/-- A point at which the form is not negative survives. -/
theorem Point.addNonneg (h : m.Point v) {f : Linear n} (hf : 0 ≤ f.eval v) :
    ∃ k, m.addNonneg f = some k ∧ k.Point v := by
  have hrange : ¬ (m.range f).refutes .ge = true := fun hr => (h.range f).not_holds_of_refutes hr hf
  have hsum : sumValue v (f.summands.map fun s => (s.1, -s.2)) ≤ f.constant := by
    rw [eval_eq_sumValue] at hf
    rw [sumValue_map_neg]
    omega
  have hnodup : ((f.summands.map fun s => (s.1, -s.2)).map Prod.fst).Nodup := by
    rw [List.map_map]
    exact f.nodup_summands
  unfold Matrix.addNonneg
  rw [if_neg hrange]
  dsimp only
  -- two summands with unit coefficients, none, one, or any others
  split
  case h_1 x k y l _ hpair =>
    obtain ⟨hlist, hk, hl⟩ := unitPair?_eq_some hpair
    refine ⟨_, rfl, h.addSum ?_⟩
    rw [Literal.value_ofUnit hk, Literal.value_ofUnit hl]
    simpa [hlist] using hsum
  case h_2 hnil =>
    rw [hnil] at hsum
    rw [if_pos (by simpa using hsum)]
    exact ⟨m, rfl, h⟩
  case h_3 x k _ hone =>
    refine ⟨_, rfl, h.addScaled ?_⟩
    simpa [hone] using hsum
  case h_4 => exact ⟨_, rfl, h.addSpread hnodup hsum⟩

theorem Point.addLinear (h : m.Point v) {f : Linear n} {r : Relation} (hf : r.Holds (f.eval v)) :
    ∃ k, m.addLinear f r = some k ∧ k.Point v := by
  cases r with
  | ge => exact h.addNonneg hf
  | gt =>
    apply h.addNonneg
    rw [eval_offset]
    change 0 < f.eval v at hf
    omega
  | eq =>
    change f.eval v = 0 at hf
    obtain ⟨k, hk, hkv⟩ := h.addNonneg (f := f) (by omega)
    obtain ⟨k', hk', hkv'⟩ := hkv.addNonneg (f := f.negate) (by rw [eval_negate]; omega)
    exact ⟨k', by rw [Matrix.addLinear, hk, Option.bind_some, hk'], hkv'⟩
  | ne =>
    change f.eval v ≠ 0 at hf
    -- a range that ends at zero is cut back by one; inside a range nothing can be cut
    have hrange := h.range f
    unfold Matrix.addLinear
    dsimp only
    split
    case isTrue hzero =>
      exact absurd (hrange.eq_zero hzero) hf
    case isFalse =>
      split
      case isTrue hlo =>
        have hle := hrange.1 0 hlo
        apply h.addNonneg
        rw [eval_offset]
        omega
      case isFalse =>
        split
        case isTrue hhi =>
          have hle := hrange.2 0 hhi
          apply h.addNonneg
          rw [eval_offset, eval_negate]
          omega
        case isFalse => exact ⟨m, rfl, h⟩

theorem Point.relate (h : m.Point v) {x y : Fin n} {k : Int} (hk : k.natAbs = 1) {rest : Interval}
    (hrest : rest.Contains (v x - k * v y)) : (m.relate x y k rest).Point v := by
  have hlow : ∀ m : Matrix n, m.Point v → ∀ l, rest.lo = some l →
      (m.addSum (.neg x) (.ofUnit k y) (-l)).Point v := by
    intro m hm l hl
    apply hm.addSum
    have hle := hrest.1 l hl
    rw [Literal.value_neg, Literal.value_ofUnit hk]
    omega
  cases hu : rest.hi with
  | none =>
    cases hl : rest.lo with
    | none => simpa only [Matrix.relate, hu, hl] using h
    | some l => simpa only [Matrix.relate, hu, hl] using hlow m h l hl
  | some u =>
    have hhigh : (m.addSum (.pos x) (.ofUnit (-k) y) u).Point v := by
      apply h.addSum
      rw [Literal.value_pos, Literal.value_ofUnit (natAbs_neg_eq_one hk), neg_mul]
      exact hrest.2 u hu
    cases hl : rest.lo with
    | none => simpa only [Matrix.relate, hu, hl] using hhigh
    | some l => simpa only [Matrix.relate, hu, hl] using hlow _ hhigh l hl

/-- The points move to the value of the form at `x`. -/
theorem Point.assignLinear (h : m.Point v) (x : Fin n) (f : Linear n) :
    (m.assignLinear x f).Point (Function.update v x (f.eval v)) := by
  have hstart : ((m.forget x).addInterval x (m.range f)).Point
      (Function.update v x (f.eval v)) := by
    apply (h.forget x (f.eval v)).addInterval
    rw [Function.update_self]
    exact h.range f
  refine List.foldlRecOn (motive := fun k : Matrix n => k.Point (Function.update v x (f.eval v)))
    _ _ hstart ?_
  intro k hk s hs
  obtain ⟨⟨y, c⟩, hmem, rfl⟩ := List.mem_map.mp hs
  obtain ⟨hsummand, hcond⟩ := List.mem_filter.mp hmem
  obtain ⟨hne, hunit⟩ := of_decide_eq_true hcond
  have hrest := h.range (f.without y)
  rw [eval_without, coeff_of_mem_summands hsummand] at hrest
  apply hk.relate hunit
  rw [Function.update_self, Function.update_of_ne hne]
  exact hrest

end Matrix

namespace Octagon

variable {s : Octagon n}

theorem Point.meet (h : s.Point v) {c : Constraint (Fin n)} (hc : c.Holds v) :
    (s.meet c).Point v := by
  obtain ⟨m, hm, hv⟩ := point_iff_closure?.mp h
  unfold Octagon.meet
  rw [hm]
  dsimp only
  cases hf : c.term.linear? with
  | none =>
    have hrange : ¬ (m.termRange c.term).refutes c.relation = true :=
      fun hr => (hv.termRange c.term).not_holds_of_refutes hr hc
    rw [if_neg hrange]
    exact point_ofMatrix.mpr hv
  | some f =>
    have hholds : c.relation.Holds (f.eval v) := by
      rw [Term.eval_linear? v hf]
      exact hc
    obtain ⟨k, hk, hkv⟩ := hv.addLinear hholds
    dsimp only
    rw [hk]
    exact point_ofMatrix.mpr hkv

theorem eval_of_isShift {x : Fin n} {f : Linear n} (h : isShift x f = true) :
    f.eval v = v x + f.constant := by
  have hone : f.summands = [(x, 1)] := of_decide_eq_true h
  rw [Linear.eval_eq_sumValue, hone]
  simp

theorem Point.assign (h : s.Point v) (x : Fin n) (t : Term (Fin n)) :
    (s.assign x t).Point (Function.update v x (t.eval v)) := by
  obtain ⟨m, hm, hv⟩ := point_iff_closure?.mp h
  unfold Octagon.assign
  rw [hm]
  dsimp only
  cases hf : t.linear? with
  | none =>
    apply point_ofMatrix.mpr
    apply (hv.forget x (t.eval v)).addInterval
    rw [Function.update_self]
    exact hv.termRange t
  | some f =>
    rw [← Term.eval_linear? v hf]
    dsimp only
    split
    case isTrue hshift =>
      rw [eval_of_isShift hshift]
      exact point_tight.mpr (hv.shift x f.constant)
    case isFalse => exact point_ofMatrix.mpr (hv.assignLinear x f)

theorem Point.holds_of_satisfies (h : s.Point v) {c : Constraint (Fin n)}
    (hc : s.satisfies c = true) :
    c.Holds v := by
  obtain ⟨m, hm, hv⟩ := point_iff_closure?.mp h
  unfold Octagon.satisfies at hc
  rw [hm] at hc
  exact (hv.rangeOf c.term).holds_of_entails hc

/-- Joins and widenings lose no points. -/
theorem upperBounds (n : Nat) :
    Dataflow.UpperBounds fun s t : Octagon n => ∀ v, s.Point v → t.Point v where
  refl _ _ hv := hv
  trans hab hbc v hv := hbc v (hab v hv)
  same_refl := same_refl
  le_join_left _ _ _ hv := Point.join (.inl hv)
  le_join_right _ _ _ hv := Point.join (.inr hv)
  le_widen_left _ _ _ hv := Point.widen (.inl hv)
  le_widen_right _ _ _ hv := Point.widen (.inr hv)

end Octagon

end Lifespan
