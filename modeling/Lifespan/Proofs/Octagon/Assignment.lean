import Lifespan.Proofs.Octagon.Entailment

namespace Lifespan

variable {n : Nat} {v w : Fin n → Int}

theorem Bound.allows_shift_iff {a : Bound} {c d : Int} (h : ∀ e, a = finite e → e + c < limit) :
    (a.shift c).Allows (d + c) ↔ a.Allows d := by
  cases a with
  | absent => exact Iff.rfl
  | finite e =>
    rw [Bound.shift, allows_ofInt_iff (h e rfl), allows_finite]
    omega

namespace Linear

variable {f : Linear n} {x y : Fin n}

/-- What `x` gets is a constant, `x` plus a constant, or `±y` plus a constant for another
variable `y`. -/
inductive IsUnitUpdate (x : Fin n) (f : Linear n) : Prop
  | constant (h : f.summands = [])
  | translation (h : f.summands = [(x, 1)])
  | copy (y : Fin n) (k : Int) (hne : y ≠ x) (hk : k.natAbs = 1) (h : f.summands = [(y, k)])

theorem summands_without (f : Linear n) (y : Fin n) :
    (f.without y).summands = f.summands.filter (·.1 ≠ y) := by
  unfold summands
  rw [List.filter_filterMap]
  apply List.filterMap_congr
  intro z _
  by_cases hz : z = y
  · subst hz
    by_cases hzero : f.coeffs.get z =
      0 <;> simp [without, Vector.get_set_self, hzero, Option.filter]
  · by_cases hzero : f.coeffs.get z =
      0 <;> simp [without, Vector.get_set_of_ne _ _ hz, hzero, hz, Option.filter]

/-- A form that does not mention `x` has its value whatever `x` is. -/
theorem eval_update (hx : ∀ s ∈ f.summands, s.1 ≠ x) (d : Int) :
    f.eval (Function.update v x d) = f.eval v := by
  rw [eval_eq_sumValue, eval_eq_sumValue]
  congr 1
  apply sumValue_congr
  intro s hs
  exact Function.update_of_ne (hx s hs) d v

end Linear

namespace Matrix

open Linear

variable {m : Matrix n} {x y : Fin n} {f : Linear n} {b c d k : Int}

theorem point_addInterval_iff {a : Interval} (ha : a.EndsWithin d) (hd : 2 * d < Bound.limit) :
    (m.addInterval x a).Point v ↔ m.Point v ∧ a.Contains (v x) := by
  obtain ⟨lo, hi⟩ := a
  have hlow : ∀ (k : Matrix n) (l : Int), lo = some l →
      ((k.addUpper (.neg x) (-l)).Point v ↔ k.Point v ∧ l ≤ v x) := by
    intro k l hl
    have hsize : |l| ≤ d := ha.1 l hl
    rw [point_addUpper_iff (by rw [abs_neg]; omega), Literal.value_neg, neg_le_neg_iff]
  have hhigh : ∀ u, hi = some u → ((m.addUpper (.pos x) u).Point v ↔ m.Point v ∧ v x ≤ u) := by
    intro u hu
    have hsize : |u| ≤ d := ha.2 u hu
    rw [point_addUpper_iff (by omega), Literal.value_pos]
  cases lo <;> cases hi <;> simp [addInterval, Interval.Contains, hlow, hhigh, and_assoc, and_comm]

theorem point_relate_iff {rest : Interval} (hrest : rest.EndsWithin d) (hd : d < Bound.limit)
    (hk : k.natAbs = 1) :
    (m.relate x y k rest).Point v ↔ m.Point v ∧ rest.Contains (v x - k * v y) := by
  obtain ⟨lo, hi⟩ := rest
  have hlow : ∀ (p : Matrix n) (l : Int), lo = some l →
      ((p.addSum (.neg x) (.ofUnit k y) (-l)).Point v ↔ p.Point v ∧ l ≤ v x - k * v y) := by
    intro p l hl
    have hsize : |l| ≤ d := hrest.1 l hl
    have hneg := neg_abs_le l
    rw [point_addSum_iff (by omega), Literal.value_neg, Literal.value_ofUnit hk]
    apply and_congr_right
    intro _
    omega
  have hhigh : ∀ u, hi = some u →
      ((m.addSum (.pos x) (.ofUnit (-k) y) u).Point v ↔ m.Point v ∧ v x - k * v y ≤ u) := by
    intro u hu
    have hsize : |u| ≤ d := hrest.2 u hu
    have hself := le_abs_self u
    rw [point_addSum_iff (by omega), Literal.value_pos, Literal.value_ofUnit
      (natAbs_neg_eq_one hk), neg_mul, ← sub_eq_add_neg]
  cases lo <;> cases hi <;> simp [relate, Interval.Contains, hlow, hhigh, and_assoc, and_comm]

theorem abs_growth_le (x : Fin n) (c : Int) (i : Literal n) : |growth x c i| ≤ |c| := by
  have hnonneg := abs_nonneg c
  unfold growth
  split
  · split
    · rw [abs_neg]
    · exact le_refl _
  · rwa [abs_zero]

/-- As long as no bound reaches the limit, translating a matrix translates its points. -/
theorem point_shift_iff (hm : m.Within b) (hlimit : b + 2 * |c| < Bound.limit) :
    (m.shift x c).Point v ↔ m.Point (Function.update v x (v x - c)) := by
  have hback : ∀ i : Literal n, i.value v =
      i.value (Function.update v x (v x - c)) + growth x c i := by
    intro i
    rw [← value_update_add, Function.update_self, Function.update_idem, Int.sub_add_cancel,
      Function.update_eq_self]
  apply forall₂_congr
  intro i j
  have hdiff : j.value v - i.value v = j.value (Function.update v x (v x - c)) -
      i.value (Function.update v x (v x - c)) + (growth x c j - growth x c i) := by
    rw [hback i, hback j]
    omega
  rw [shift, get_ofFn, hdiff, Bound.allows_shift_iff]
  intro e he
  have hsize := (abs_le.mp (hm i j e he)).2
  have hi := abs_le.mp (abs_growth_le x c i)
  have hj := abs_le.mp (abs_growth_le x c j)
  omega

theorem assignLinear_of_self (hf : ∀ s ∈ f.summands, s.1 = x) :
    m.assignLinear x f = (m.forget x).addInterval x (m.range f) := by
  unfold assignLinear
  rw [List.filter_eq_nil_iff.mpr]
  · rfl
  · rintro ⟨y, k⟩ hmem
    have hy : y = x := hf (y, k) hmem
    simp [hy]

theorem assignLinear_of_copy (hne : y ≠ x) (hk : k.natAbs = 1) (hf : f.summands = [(y, k)]) :
    m.assignLinear x f = ((m.forget x).addInterval x (m.range f)).relate x y k
    (m.range (f.without y)) := by
  simp [assignLinear, hf, hne, hk]

theorem Within.endsWithin_range_of_unit (h : m.Within b) (hk : k.natAbs = 1)
    (hf : f.summands = [(x, k)]) (hb : b < int128Limit) :
    (m.range f).EndsWithin (b + |f.constant|) := by
  have habs := abs_of_natAbs_eq_one hk
  have hscaled := (h.interval x).scale (k := k) (by rintro rfl; cases hk)
  rw [h.range_of_scaled hf (by rwa [habs, one_mul])]
  rw [habs, one_mul] at hscaled
  exact hscaled.add (Interval.endsWithin_point f.constant)

namespace Tight

/-- Dropping a variable of a tight matrix is an exact projection. -/
theorem point_forget_iff (hm : m.Tight) : (m.forget x).Point v ↔
    ∃ d, m.Point (Function.update v x d) := by
  constructor
  · intro h
    have hothers : m.PointOn (Finset.univ.erase x) v := by
      intro i j c hi hj hc
      have hcell := h i j
      rw [forget, get_ofFn, if_neg fun hx => hx.2.elim (Finset.ne_of_mem_erase hi)
        (Finset.ne_of_mem_erase hj)]
        at hcell
      exact hcell.mono hc
    obtain ⟨w, hw, hkeep⟩ := hm.exists_point_of_pointOn hothers
    have hupdate : Function.update v x (w x) = w := by
      funext y
      by_cases hy : y = x
      · rw [hy, Function.update_self]
      · rw [Function.update_of_ne hy]
        exact (hkeep (.pos y) (Finset.mem_erase.mpr ⟨hy, Finset.mem_univ y⟩)).symm
    refine ⟨w x, ?_⟩
    rwa [hupdate]
  · rintro ⟨d, hd⟩
    have hforget := hd.forget x (v x)
    rwa [Function.update_idem, Function.update_eq_self] at hforget

/-- A variable takes every value between two that it takes. -/
theorem exists_point_between (hm : m.Tight) (hv : m.Point v) (hw : m.Point w) (hvd : v x ≤ d)
    (hdw : d ≤ w x) :
    ∃ u, m.Point u ∧ u x = d := by
  have honly : m.PointOn {x} fun _ => d := by
    rintro ⟨y, s⟩ ⟨z, t⟩ c hy hz hc
    obtain rfl : y = x := Finset.mem_singleton.mp hy
    obtain rfl : z = y := Finset.mem_singleton.mp hz
    have hvc := hv.le_of_bounds hc
    have hwc := hw.le_of_bounds hc
    cases s <;> cases t <;>
      simp only [Literal.value, Bool.false_eq_true, if_false, if_true] at hvc hwc ⊢ <;> omega
  obtain ⟨u, hu, hkeep⟩ := hm.exists_point_of_pointOn honly
  exact ⟨u, hu, hkeep (.pos x) (Finset.mem_singleton_self x)⟩

/-- A point of the projection at which `x` has the value of a form without `x` comes from
a point. -/
theorem exists_of_forget (hm : m.Tight) (hx : ∀ s ∈ f.summands, s.1 ≠ x)
    (hforget : (m.forget x).Point v) (hval : v x = f.eval v) :
    ∃ w, m.Point w ∧ v = Function.update w x (f.eval w) := by
  obtain ⟨d, hd⟩ := hm.point_forget_iff.mp hforget
  refine ⟨Function.update v x d, hd, ?_⟩
  rw [eval_update hx, Function.update_idem, ← hval, Function.update_eq_self]

theorem exists_of_assignLinear_constant (hm : m.Tight) (hf : f.summands = [])
    (hc : 2 * |f.constant| < Bound.limit) (h : (m.assignLinear x f).Point v) :
    ∃ w, m.Point w ∧ v = Function.update w x (f.eval w) := by
  have hwide : Bound.limit < int128Limit := by decide
  have hnonneg := abs_nonneg f.constant
  rw [assignLinear_of_self (by simp [hf]), m.range_of_constant hf (by omega),
    point_addInterval_iff (Interval.endsWithin_point _) hc] at h
  apply hm.exists_of_forget (by simp [hf]) h.1
  rw [h.2.eq_of_point, eval_eq_sumValue, hf, sumValue_nil, zero_add]

theorem exists_of_assignLinear_copy (hm : m.Tight) (hb : m.Within b) (h0 : 0 ≤ b) (hne : y ≠ x)
    (hk : k.natAbs = 1) (hf : f.summands = [(y, k)]) (hlimit : 2 * (b + |f.constant|) < Bound.limit)
    (h : (m.assignLinear x f).Point v) : ∃ w, m.Point w ∧ v = Function.update w x (f.eval w) := by
  have hwide : Bound.limit < int128Limit := by decide
  have hnonneg := abs_nonneg f.constant
  have hrest : m.range (f.without y) = .point f.constant :=
    m.range_of_constant (by simp [summands_without, hf]) (by change |f.constant| < _; omega)
  rw [assignLinear_of_copy hne hk hf, hrest, point_relate_iff
    (Interval.endsWithin_point _) (by omega) hk, point_addInterval_iff
      (hb.endsWithin_range_of_unit hk hf (by omega)) hlimit] at h
  -- the range of the new value says nothing that its distance to `y` does not say
  obtain ⟨⟨hforget, -⟩, hdiff⟩ := h
  have hval := hdiff.eq_of_point
  apply hm.exists_of_forget (by simp [hf, hne]) hforget
  simp only [eval_eq_sumValue, hf, sumValue_cons, sumValue_nil]
  omega

/-- After `x` is subtracted from a constant, the range of the new value and what is known of the
other variables are all that is left. -/
theorem point_assignLinear_negation (hm : m.Tight) (hb : m.Within b) (h0 : 0 ≤ b)
    (hf : f.summands = [(x, -1)]) (hlimit : 2 * (b + |f.constant|) < Bound.limit) :
    (m.assignLinear x f).Point v ↔
      (∃ d, m.Point (Function.update v x d)) ∧ ∃ w, m.Point w ∧ v x = f.constant - w x := by
  have hwide : 2 * Bound.limit < int128Limit := by decide
  have hnonneg := abs_nonneg f.constant
  have heval : ∀ w, f.eval w = f.constant - w x := by
    intro w
    simp only [eval_eq_sumValue, hf, sumValue_cons, sumValue_nil]
    omega
  have hhull : (m.range f).Hull m.Point fun w => f.eval w :=
    hm.hull_range hb h0 (.scaled x (-1) hf) (by omega) (by simp [hf]; omega)
  rw [assignLinear_of_self (by simp [hf]), point_addInterval_iff
    (hb.endsWithin_range_of_unit rfl hf (by omega)) hlimit, hm.point_forget_iff]
  apply and_congr_right
  intro _
  constructor
  · intro hrange
    -- the range is a hull, so the form gets to either side of each value in it
    obtain ⟨u, hu, hlow⟩ := hhull.exists_le hrange
    obtain ⟨w, hw, hhigh⟩ := hhull.exists_ge hrange
    rw [heval] at hlow hhigh
    obtain ⟨z, hz, hzx⟩ :=
      hm.exists_point_between (x := x) (d := f.constant - v x) hw hu (by omega) (by omega)
    exact ⟨z, hz, by omega⟩
  · rintro ⟨w, hw, hval⟩
    rw [hval, ← heval]
    exact hw.range f

end Tight

end Matrix

namespace Octagon

variable {s : Octagon n} {x : Fin n} {t : Term (Fin n)} {f : Linear n} {B : Int}

theorem point_assign_linear (ht : t.linear? = some f) (hf : f.summands ≠ [(x, 1)]) :
    (s.assign x t).Point v ↔ ∃ m, s.closure? = some m ∧ (m.assignLinear x f).Point v := by
  have hshift : isShift x f = false := decide_eq_false hf
  unfold assign
  cases s.closure? with
  | none => simpa using not_point_empty
  | some m => simpa [ht, hshift] using point_ofMatrix

theorem point_assign_translation (ht : t.linear? = some f) (hf : f.summands = [(x, 1)]) :
    (s.assign x t).Point v ↔ ∃ m, s.closure? = some m ∧ (m.shift x f.constant).Point v := by
  have hshift : isShift x f = true := decide_eq_true hf
  unfold assign
  cases s.closure? with
  | none => simpa using not_point_empty
  | some m => simpa [ht, hshift] using point_tight

theorem lt_limit_of_double (h0 : 0 ≤ B) (hlimit : 8 * (2 * n + 1) * (B + 1) < Bound.limit) :
    4 * (2 * n + 1) * (B + 1) < Bound.limit := by
  have hprod : 0 ≤ (2 * n + 1 : Int) * (B + 1) := Int.mul_nonneg (by omega) (by omega)
  rw [mul_assoc] at hlimit ⊢
  omega

/-- The closed matrix of an octagon that the operations build, with room for what an
assignment adds. -/
theorem Built.tight_within (hs : Built Matrix.Small s) (hB : s.Within B) (h0 : 0 ≤ B)
    (hlimit : 8 * (2 * n + 1) * (B + 1) < Bound.limit) :
    ∃ b, B ≤ b ∧ 8 * b < Bound.limit ∧ ∀ m, s.closure? = some m → m.Tight ∧ m.Within b := by
  have hhalf := lt_limit_of_double h0 hlimit
  have hle : B + 1 ≤ (2 * n + 1) * (B + 1) := le_mul_of_one_le_left (by omega) (by omega)
  refine ⟨(2 * n + 1) * (B + 1), by omega, by rwa [← mul_assoc], ?_⟩
  intro m hm
  exact ⟨hs.tight_of_closure? (hB.closable hhalf) hm, hs.within_closure? hB h0 hhalf hm⟩

/-- Assigning a constant, a translation of the variable or another variable up to its sign and a
constant moves the points of an octagon and adds none. -/
theorem assign_exact (s : Octagon n) (x : Fin n) (t : Term (Fin n)) (f : Linear n) (B : Int)
    (hs : Built Matrix.Small s) (hB : s.Within B) (ht : t.linear? = some f) (hf : f.IsUnitUpdate x)
    (hconst : |f.constant| ≤ B) (hlimit : 8 * (2 * n + 1) * (B + 1) < Bound.limit)
    (v : Fin n → Int) :
    (s.assign x t).Point v ↔ ∃ w, s.Point w ∧ v = Function.update w x (t.eval w) := by
  constructor
  · intro h
    have h0 := abs_nonneg f.constant
    obtain ⟨b, hBb, hb, hclosed⟩ := hs.tight_within hB (h0.trans hconst) hlimit
    suffices hmoved : ∃ m, s.closure? = some m ∧ ∃ w, m.Point w ∧
        v = Function.update w x (f.eval w) by
      obtain ⟨m, hm, w, hw, hv⟩ := hmoved
      rw [Term.eval_linear? w ht] at hv
      exact ⟨w, (point_of_closure? hm).mpr hw, hv⟩
    cases hf with
    | constant hf =>
      obtain ⟨m, hm, hv⟩ := (point_assign_linear ht (by simp [hf])).mp h
      obtain ⟨htight, hwithin⟩ := hclosed m hm
      exact ⟨m, hm, htight.exists_of_assignLinear_constant hf (by omega) hv⟩
    | translation hf =>
      obtain ⟨m, hm, hv⟩ := (point_assign_translation ht hf).mp h
      obtain ⟨-, hwithin⟩ := hclosed m hm
      refine ⟨m, hm, _, (Matrix.point_shift_iff hwithin (by omega)).mp hv, ?_⟩
      rw [eval_of_isShift (decide_eq_true hf), Function.update_self, Function.update_idem,
        Int.sub_add_cancel, Function.update_eq_self]
    | copy y k hne hk hf =>
      obtain ⟨m, hm, hv⟩ := (point_assign_linear ht (by simp [hf, hne])).mp h
      obtain ⟨htight, hwithin⟩ := hclosed m hm
      exact ⟨m, hm, htight.exists_of_assignLinear_copy hwithin (by omega) hne hk hf (by omega) hv⟩
  · rintro ⟨w, hw, rfl⟩
    exact hw.assign x t

/-- That `x ≤ 0` follows from what the corner says of `x` and `y` together, and it is kept when `y`
is assigned. -/
theorem assign_exact_corner : (corner.assign yVar (.sub (.const 1) (.var xVar))).Point =
    fun v => v xVar + v yVar = 1 ∧ v xVar ≤ 0 := by
  funext v
  apply propext
  rw [assign_exact corner yVar (.sub (.const 1) (.var xVar)) ⟨#v[-1, 0], 1⟩ 1
    built_corner within_corner
    (by decide +kernel) (.copy xVar (-1) (by decide) rfl (by decide +kernel))
      (by decide) (by decide)]
  have hx : ∀ (w : Fin 2 → Int) (d : Int), Function.update w yVar d xVar = w xVar :=
    fun w d => Function.update_of_ne (by decide) d w
  constructor
  · rintro ⟨w, hw, hv⟩
    obtain ⟨hsum, hdiff⟩ := point_corner.mp hw
    have hvx : v xVar = w xVar := by rw [hv, hx]
    have hvy : v yVar = 1 - w xVar := by rw [hv, Function.update_self]; rfl
    omega
  · rintro ⟨hsum, hneg⟩
    refine ⟨Function.update v yVar (v xVar), point_corner.mpr ?_, ?_⟩
    · rw [hx, Function.update_self]
      omega
    · change v = Function.update (Function.update v yVar (v xVar))
        yVar (1 - Function.update v yVar (v xVar) xVar)
      rw [hx, Function.update_idem, ← hsum, add_sub_cancel_left, Function.update_eq_self]

/-- The values of `x` are mirrored, and whatever the others can be goes with each of them. -/
theorem Built.point_assign_negation (hs : Built Matrix.Small s) (hB : s.Within B)
    (ht : t.linear? = some f) (hf : f.summands = [(x, -1)]) (hconst : |f.constant| ≤ B)
    (hlimit : 8 * (2 * n + 1) * (B + 1) < Bound.limit) :
    (s.assign x t).Point v ↔
      (∃ d, s.Point (Function.update v x d)) ∧ ∃ w, s.Point w ∧ v x = f.constant - w x := by
  have h0 := abs_nonneg f.constant
  obtain ⟨b, hBb, hb, hclosed⟩ := hs.tight_within hB (h0.trans hconst) hlimit
  have hmatrix : ∀ m, s.closure? = some m → ((m.assignLinear x f).Point v ↔
      (∃ d, s.Point (Function.update v x d)) ∧ ∃ w, s.Point w ∧ v x = f.constant - w x) := by
    intro m hm
    obtain ⟨htight, hwithin⟩ := hclosed m hm
    simp only [point_of_closure? hm]
    exact htight.point_assignLinear_negation hwithin (by omega) hf (by omega)
  rw [point_assign_linear ht (by simp [hf])]
  constructor
  · rintro ⟨m, hm, hv⟩
    exact (hmatrix m hm).mp hv
  · intro h
    obtain ⟨d, hd⟩ := h.1
    obtain ⟨m, hm, -⟩ := point_iff_closure?.mp hd
    exact ⟨m, hm, (hmatrix m hm).mpr h⟩

theorem Built.assign_linear (hs : Built Matrix.Small s) (hclosable : s.Closable)
    (ht : t.linear? = some f) (hf : f.summands ≠ [(x, 1)])
    (hclosed : ∀ m, s.replaced? x t = some m → m.Small) :
    Built Matrix.Small (s.assign x t) := by
  have hshift : isShift x f = false := decide_eq_false hf
  have hnone : s.translated? x t = none := by
    unfold translated?
    cases s.closure? <;> simp [ht, hshift]
  exact hs.assign hclosable x t hclosed (by simp [hnone])

/-- The second negation mirrors the range back; the relations are gone since the first. -/
theorem Built.point_negate_twice (hs : Built Matrix.Small s)
    (hmid : Built Matrix.Small (s.assign x t)) (ht : t.linear? = some f)
    (hf : f.summands = [(x, -1)]) (hconst : |f.constant| ≤ B)
    (hlimit : 8 * (2 * n + 1) * (B + 1) < Bound.limit) (hbefore : s.Within B)
    (hbetween : (s.assign x t).Within B) :
    ((s.assign x t).assign x t).Point v ↔
      (∃ d, s.Point (Function.update v x d)) ∧ ∃ w, s.Point w ∧ w x = v x := by
  rw [hmid.point_assign_negation hbetween ht hf hconst hlimit]
  simp only [hs.point_assign_negation hbefore ht hf hconst hlimit, Function.update_idem,
    Function.update_self]
  constructor
  · rintro ⟨⟨-, hothers, -⟩, u, ⟨-, w, hw, hu⟩, hv⟩
    exact ⟨hothers, w, hw, by omega⟩
  · rintro ⟨hothers, w, hw, hv⟩
    refine ⟨⟨f.constant - w x, hothers, w, hw, rfl⟩, Function.update w x (f.constant - w x),
      ⟨?_, w, hw, ?_⟩, ?_⟩
    · exact ⟨w x, by rwa [Function.update_idem, Function.update_eq_self]⟩
    · rw [Function.update_self]
    · rw [Function.update_self]
      omega

/-- The points are all combinations of a value of `x` with values of the others exactly if the
values of `x` can be exchanged. -/
theorem forall_point_iff_exchange (s : Octagon n) (x : Fin n) :
    (∀ v, ((∃ d, s.Point (Function.update v x d)) ∧ ∃ w, s.Point w ∧ w x = v x) ↔ s.Point v) ↔
      ∀ v w, s.Point v → s.Point w → s.Point (Function.update v x (w x)) := by
  constructor
  · intro hall v w hv hw
    apply (hall _).mp
    refine ⟨⟨v x, ?_⟩, w, hw, ?_⟩
    · rwa [Function.update_idem, Function.update_eq_self]
    · rw [Function.update_self]
  · intro hexchange v
    constructor
    · rintro ⟨⟨d, hd⟩, w, hw, hwx⟩
      have hback := hexchange _ w hd hw
      rwa [Function.update_idem, hwx, Function.update_eq_self] at hback
    · intro hv
      exact ⟨⟨v x, by rwa [Function.update_eq_self]⟩, v, hv, rfl⟩

/-- Subtracting a variable from a constant twice restores its range and keeps what is known of the
others, but forgets how they are related; so it restores an octagon exactly if the values of the
variable can be exchanged between its points. -/
theorem negate_twice (s : Octagon n) (x : Fin n) (t : Term (Fin n)) (f : Linear n) (B : Int)
    (hs : Built Matrix.Small s) (ht : t.linear? = some f) (hf : f.summands = [(x, -1)])
    (hconst : |f.constant| ≤ B) (hlimit : 8 * (2 * n + 1) * (B + 1) < Bound.limit)
    (hbefore : s.Within B) (hfirst : ∀ m, s.replaced? x t = some m → m.Within B)
    (hbetween : (s.assign x t).Within B)
    (hsecond : ∀ m, (s.assign x t).replaced? x t = some m → m.Within B) :
    (∀ v, ((s.assign x t).assign x t).Point v ↔
      (∃ d, s.Point (Function.update v x d)) ∧ ∃ w, s.Point w ∧ w x = v x) ∧
    (((s.assign x t).assign x t).same s = true ↔
      ∀ v w, s.Point v → s.Point w → s.Point (Function.update v x (w x))) := by
  have hne : f.summands ≠ [(x, 1)] := by simp [hf]
  have hhalf := lt_limit_of_double ((abs_nonneg f.constant).trans hconst) hlimit
  have hmid : Built Matrix.Small (s.assign x t) :=
    hs.assign_linear (hbefore.closable hhalf) ht hne fun m hm => ⟨B, hhalf, hfirst m hm⟩
  have hend : Built Matrix.Small ((s.assign x t).assign x t) :=
    hmid.assign_linear (closable_assign s x t) ht hne fun m hm => ⟨B, hhalf, hsecond m hm⟩
  have hpoints : ∀ v, ((s.assign x t).assign x t).Point v ↔
      (∃ d, s.Point (Function.update v x d)) ∧ ∃ w, s.Point w ∧ w x = v x := by
    intro v
    exact hs.point_negate_twice hmid ht hf hconst hlimit hbefore hbetween
  refine ⟨hpoints, ?_⟩
  rw [← forall_point_iff_exchange]
  constructor
  · intro hsame v
    rw [← hpoints]
    exact point_of_same hsame
  · intro hall
    apply decide_eq_true
    apply hend.closure?_eq_of_points hs (closable_assign _ x t) (hbefore.closable hhalf)
    intro v
    rw [hpoints, hall]

/-- Of the corner only `x ≤ 0` is left. -/
theorem negate_twice_corner :
    ((corner.assign xVar (.sub (.const 1) (.var xVar))).assign xVar
      (.sub (.const 1) (.var xVar))).Point =
      fun v => v xVar ≤ 0 := by
  have hfirst : ∀ m ∈ corner.replaced? xVar (.sub (.const 1) (.var xVar)), m.Within 2 := by
    decide +kernel
  have hbetween : ∀ m ∈ (corner.assign xVar (.sub (.const 1) (.var xVar))).matrix?, m.Within 2 := by
    decide +kernel
  have hsecond : ∀ m ∈ (corner.assign xVar (.sub (.const 1) (.var xVar))).replaced? xVar
      (.sub (.const 1) (.var xVar)), m.Within 2 := by decide +kernel
  obtain ⟨hpoints, -⟩ :=
    negate_twice corner xVar (.sub (.const 1) (.var xVar)) ⟨#v[-1, 0], 1⟩ 2 built_corner
    (by decide +kernel) (by decide +kernel) (by decide) (by decide)
    (fun m hm => (within_corner m hm).mono (by decide)) hfirst hbetween hsecond
  funext v
  apply propext
  rw [hpoints]
  constructor
  · rintro ⟨-, w, hw, hwx⟩
    obtain ⟨hsum, hdiff⟩ := point_corner.mp hw
    omega
  · intro hneg
    have hy : ∀ d, Function.update v xVar d yVar = v yVar :=
      fun d => Function.update_of_ne (by decide) d v
    refine ⟨⟨-|v yVar|, point_corner.mpr ?_⟩, fun _ => v xVar, point_corner.mpr ?_, rfl⟩
    · have hlow := neg_abs_le (v yVar)
      have hhigh := le_abs_self (v yVar)
      rw [Function.update_self, hy]
      omega
    · omega

/-- An assignment reads the closed matrix only. -/
theorem assign_eq_of_closure? {a b : Octagon n} (h : a.closure? = b.closure?) :
    a.assign x t = b.assign x t := by
  rw [assign, assign, h]

theorem satisfies_eq_of_same {a b : Octagon n} (h : a.same b = true) (c : Constraint (Fin n)) :
    a.satisfies c = b.satisfies c := by
  have hclosure : a.closure? = b.closure? := of_decide_eq_true h
  rw [satisfies, satisfies, hclosure]

/-- `x ≤ y`. -/
def ordered : Octagon 2 := (top 2).meet ⟨.sub (.var yVar) (.var xVar), .ge⟩

/-- That `x ≤ y` is lost, though no bound in sight is larger than zero. -/
theorem exists_negate_twice_not_same :
    ∃ s : Octagon 2, Built Matrix.Small s ∧ s.Within 0 ∧
      (∀ m, s.replaced? xVar (.sub (.const 0) (.var xVar)) = some m → m.Within 0) ∧
      (s.assign xVar (.sub (.const 0) (.var xVar))).Within 0 ∧
      (∀ m, (s.assign xVar (.sub (.const 0) (.var xVar))).replaced? xVar
        (.sub (.const 0) (.var xVar)) = some m →
        m.Within 0) ∧
      ((s.assign xVar (.sub (.const 0) (.var xVar))).assign xVar (.sub (.const 0) (.var xVar))).same
      s = false := by
  have hmeet : ∀ m ∈ (top 2).refined? ⟨.sub (.var yVar) (.var xVar), .ge⟩, m.Within 0 := by
    decide +kernel
  have hbefore : ∀ m ∈ ordered.matrix?, m.Within 0 := by decide +kernel
  have hfirst : ∀ m ∈ ordered.replaced? xVar (.sub (.const 0) (.var xVar)), m.Within 0 := by
    decide +kernel
  have hbetween : ∀ m ∈ (ordered.assign xVar (.sub (.const 0) (.var xVar))).matrix?,
      m.Within 0 := by
    decide +kernel
  have hsecond : ∀ m ∈ (ordered.assign xVar (.sub (.const 0) (.var xVar))).replaced? xVar
      (.sub (.const 0) (.var xVar)), m.Within 0 := by decide +kernel
  have hopen : (ordered.assign xVar (.sub (.const 0) (.var xVar))).closure? = (top 2).closure? := by
    decide +kernel
  have hkept : ordered.satisfies ⟨.sub (.var yVar) (.var xVar), .ge⟩ = true := by decide +kernel
  have hlost : ((top 2).assign xVar (.sub (.const 0) (.var xVar))).satisfies
      ⟨.sub (.var yVar) (.var xVar), .ge⟩ =
      false := by decide +kernel
  have hbuilt : Built Matrix.Small ordered :=
    .meet .top (fun _ h => nomatch h) _ fun m hm => ⟨0, by decide, hmeet m hm⟩
  refine ⟨ordered, hbuilt, hbefore, hfirst, hbetween, hsecond, ?_⟩
  rw [assign_eq_of_closure? hopen, ← Bool.not_eq_true]
  intro hsame
  rw [satisfies_eq_of_same hsame, hkept] at hlost
  cases hlost

end Octagon

end Lifespan
