import Lifespan.Octagon.Linear
import Lifespan.Proofs.Vector
import Mathlib.Algebra.BigOperators.Fin
import Mathlib.Tactic.Ring

namespace Lifespan

namespace Linear

variable {n : Nat} (v : Fin n → Int)

/-- The value of a list of summands. -/
def sumValue (summands : List (Fin n × Int)) : Int := (summands.map fun s => s.2 * v s.1).sum

@[simp] theorem sumValue_nil : sumValue v [] = 0 := rfl

@[simp] theorem sumValue_cons (s : Fin n × Int) (l : List (Fin n × Int)) :
    sumValue v (s :: l) = s.2 * v s.1 + sumValue v l := by
  simp [sumValue]

theorem sumValue_map_neg (l : List (Fin n × Int)) :
    sumValue v (l.map fun s => (s.1, -s.2)) = -sumValue v l := by
  induction l with
  | nil => rfl
  | cons s l ih =>
    rw [List.map_cons, sumValue_cons, sumValue_cons, ih]
    ring

theorem summands_ofConst (c : Int) : (ofConst c : Linear n).summands = [] := by
  simp [summands, ofConst]

theorem eval_eq_sumValue (f : Linear n) : f.eval v = sumValue v f.summands + f.constant := by
  unfold eval
  induction f.summands with
  | nil => simp
  | cons s l ih =>
    rw [List.foldr_cons, ih, sumValue_cons]
    ring

theorem sumValue_summands (f : Linear n) :
    sumValue v f.summands = ∑ x, f.coeffs.get x * v x := by
  rw [Fin.sum_univ_def]
  unfold summands
  induction List.finRange n with
  | nil => rfl
  | cons x l ih =>
    rw [List.map_cons, List.sum_cons, ← ih]
    by_cases hx : f.coeffs.get x = 0 <;> simp [hx]

theorem eval_eq_sum (f : Linear n) : f.eval v = ∑ x, f.coeffs.get x * v x + f.constant := by
  rw [eval_eq_sumValue, sumValue_summands]

theorem map_fst_summands (f : Linear n) :
    f.summands.map Prod.fst = (List.finRange n).filter fun x => f.coeffs.get x ≠ 0 := by
  unfold summands
  induction List.finRange n with
  | nil => rfl
  | cons x l ih => by_cases hx : f.coeffs.get x = 0 <;> simp [hx, ih]

theorem nodup_summands (f : Linear n) : (f.summands.map Prod.fst).Nodup := by
  rw [map_fst_summands]
  exact (List.nodup_finRange n).filter _

theorem coeff_of_mem_summands {f : Linear n} {x : Fin n} {k : Int} (h : (x, k) ∈ f.summands) :
    f.coeffs.get x = k := by
  obtain ⟨y, -, hy⟩ := List.mem_filterMap.mp h
  split at hy
  · cases hy
  · cases hy
    rfl

/-- Variables occur once, so one summand can be split off by its variable. -/
theorem sumValue_eq_add_filter {l : List (Fin n × Int)} (hl : (l.map Prod.fst).Nodup) {x : Fin n}
    {k : Int} (h : (x, k) ∈ l) :
    sumValue v l = k * v x + sumValue v (l.filter fun s => s.1 ≠ x) := by
  induction l with
  | nil => cases h
  | cons s l ih =>
    obtain ⟨hs, hl⟩ := List.nodup_cons.mp hl
    have hother : ∀ t ∈ l, t.1 ≠ s.1 := fun t ht heq => hs (heq ▸ List.mem_map_of_mem ht)
    rcases List.mem_cons.mp h with rfl | hmem
    · have hrest : (l.filter fun t => t.1 ≠ x) = l := by
        apply List.filter_eq_self.mpr
        intro t ht
        exact decide_eq_true (hother t ht)
      rw [List.filter_cons_of_neg (by simp), hrest, sumValue_cons]
    · have hsx : s.1 ≠ x := (hother _ hmem).symm
      rw [List.filter_cons_of_pos (by simpa using hsx), sumValue_cons, sumValue_cons, ih hl hmem]
      ring

theorem eval_combine {f g h : Linear n} {k : Int} (hfg : f.combine k g = some h) :
    h.eval v = f.eval v + k * g.eval v := by
  unfold combine at hfg
  simp only [Option.ite_none_right_eq_some, Option.some.injEq] at hfg
  obtain ⟨-, rfl⟩ := hfg
  have hsum : ∑ x, (f.coeffs.get x + g.coeffs.get x * k) * v x =
      ∑ x, f.coeffs.get x * v x + k * ∑ x, g.coeffs.get x * v x := by
    rw [Finset.mul_sum, ← Finset.sum_add_distrib]
    exact Finset.sum_congr rfl fun x _ => by ring
  simp only [eval_eq_sum, Vector.get_ofFn, hsum]
  ring

theorem eval_scale {f h : Linear n} {k : Int} (hf : f.scale k = some h) :
    h.eval v = k * f.eval v := by
  unfold scale at hf
  simp only [Option.ite_none_right_eq_some, Option.some.injEq] at hf
  obtain ⟨-, rfl⟩ := hf
  have hsum : ∑ x, f.coeffs.get x * k * v x = k * ∑ x, f.coeffs.get x * v x := by
    rw [Finset.mul_sum]
    exact Finset.sum_congr rfl fun x _ => by ring
  simp only [eval_eq_sum, Vector.get_map, hsum]
  ring

@[simp] theorem eval_offset (f : Linear n) (c : Int) : (f.offset c).eval v = f.eval v + c := by
  simp only [eval_eq_sum, offset]
  ring

@[simp] theorem eval_negate (f : Linear n) : f.negate.eval v = -f.eval v := by
  have hsum : ∑ x, -f.coeffs.get x * v x = -∑ x, f.coeffs.get x * v x := by
    rw [← Finset.sum_neg_distrib]
    exact Finset.sum_congr rfl fun x _ => by ring
  simp only [eval_eq_sum, negate, Vector.get_map, hsum]
  ring

theorem eval_without (f : Linear n) (x : Fin n) :
    (f.without x).eval v = f.eval v - f.coeffs.get x * v x := by
  have hsum : ∑ y, (f.coeffs.set x 0 x.isLt).get y * v y =
      ∑ y, (f.coeffs.get y * v y - if y = x then f.coeffs.get x * v x else 0) := by
    apply Finset.sum_congr rfl
    intro y _
    by_cases hy : y = x
    · subst hy
      simp
    · rw [Vector.get_set_of_ne _ _ hy, if_neg hy, sub_zero]
  simp only [eval_eq_sum, without, hsum, Finset.sum_sub_distrib,
    Finset.sum_ite_eq', Finset.mem_univ, if_true]
  ring

theorem eval_of_isConstant {f : Linear n} (h : f.isConstant = true) : f.eval v = f.constant := by
  have hnil : f.summands = [] := by simpa [isConstant] using h
  rw [eval_eq_sumValue, hnil, sumValue_nil, zero_add]

theorem eval_product {f g h : Linear n} (hfg : f.product g = some h) :
    h.eval v = f.eval v * g.eval v := by
  unfold product at hfg
  split at hfg
  case isTrue hf =>
    rw [eval_scale v hfg, eval_of_isConstant v hf]
  case isFalse =>
    split at hfg
    case isTrue hg =>
      rw [eval_scale v hfg, eval_of_isConstant v hg, mul_comm]
    case isFalse => cases hfg

@[simp] theorem eval_ofConst (c : Int) : (ofConst c : Linear n).eval v = c := by
  simp [eval_eq_sum, ofConst]

@[simp] theorem eval_ofVar (x : Fin n) : (ofVar x).eval v = v x := by
  simp [eval_eq_sum, ofVar]

end Linear

/-- The linear form of a term is worth what the term is. -/
theorem Term.eval_linear? {n : Nat} (v : Fin n → Int) {t : Term (Fin n)} {f : Linear n}
    (h : t.linear? = some f) : f.eval v = t.eval v := by
  induction t generalizing f with
  | const c =>
    obtain rfl := Option.some.inj h
    exact Linear.eval_ofConst v c
  | var x =>
    obtain rfl := Option.some.inj h
    exact Linear.eval_ofVar v x
  | add l r ihl ihr =>
    simp only [linear?, Option.bind_eq_bind, Option.bind_eq_some_iff] at h
    obtain ⟨lf, hl, rf, hr, h⟩ := h
    rw [Linear.eval_combine v h, ihl hl, ihr hr, one_mul]
    rfl
  | sub l r ihl ihr =>
    simp only [linear?, Option.bind_eq_bind, Option.bind_eq_some_iff] at h
    obtain ⟨lf, hl, rf, hr, h⟩ := h
    rw [Linear.eval_combine v h, ihl hl, ihr hr, neg_one_mul, ← sub_eq_add_neg]
    rfl
  | mul l r ihl ihr =>
    simp only [linear?, Option.bind_eq_bind, Option.bind_eq_some_iff] at h
    obtain ⟨lf, hl, rf, hr, h⟩ := h
    rw [Linear.eval_product v h, ihl hl, ihr hr]
    rfl

end Lifespan
