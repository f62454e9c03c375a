import Lifespan.Proofs.AbstractState
import Lifespan.Proofs.Octagon.Ranges
import Lifespan.Proofs.Traced

namespace Lifespan

namespace Interval

variable {a b : Interval} {x y k : Int}

theorem add_point (h : FitsIn int128Limit (x + y)) : (point x).add (point y) = point (x + y) := by
  simp only [add, point, sumEnds, signed?_of_fitsIn h]

theorem neg_point (x : Int) : (point x).neg = point (-x) := rfl

theorem scale_point (h : FitsIn int128Limit (k * x)) : (point x).scale k = point (k * x) := by
  rw [mul_comm] at h
  unfold scale
  split
  case isTrue hk =>
    rw [hk, zero_mul]
  case isFalse => split <;> simp only [point, Option.bind_some, signed?_of_fitsIn h, mul_comm k]

theorem span_self (x : Int) : span x x x x = point x := by
  simp [span, leastOf, greatestOf, point]

theorem mul_point (h : FitsIn int128Limit (x * y)) : (point x).mul (point y) = point (x * y) := by
  unfold mul
  split
  case isTrue hzero =>
    have hxy : x * y = 0 := by
      rcases hzero with hx | hy
      · rw [Option.some.inj (congrArg lo hx), zero_mul]
      · rw [Option.some.inj (congrArg lo hy), mul_zero]
    rw [hxy]
  case isFalse =>
    simp only [point, signed?_of_fitsIn h]
    exact span_self _

theorem inter_point (x : Int) : (point x).inter (point x) = point x := by
  simp [inter, tighter, point, leastOf, greatestOf]

/-- The ends that are known are the value itself. -/
def EndsAt (a : Interval) (x : Int) : Prop :=
  (∀ l, a.lo = some l → l = x) ∧ ∀ h, a.hi = some h → h = x

theorem endsAt_point (x : Int) : (point x).EndsAt x :=
  ⟨fun _ hl => (Option.some.inj hl).symm, fun _ hh => (Option.some.inj hh).symm⟩

theorem EndsAt.add (ha : a.EndsAt x) (hb : b.EndsAt y) : (a.add b).EndsAt (x + y) := by
  constructor
  · intro l hl
    obtain ⟨r, s, hr, hs, rfl⟩ := sumEnds_eq_some hl
    rw [ha.1 r hr, hb.1 s hs]
  · intro h hh
    obtain ⟨r, s, hr, hs, rfl⟩ := sumEnds_eq_some hh
    rw [ha.2 r hr, hb.2 s hs]

theorem endsAt_scale (x k : Int) : ((point x).scale k).EndsAt (k * x) := by
  have htimes : ∀ c, (some x).bind (fun v => signed? int128Limit (v * k)) = some c → c = k * x := by
    intro c hc
    rw [Option.bind_some] at hc
    rw [signed?_eq_some hc, mul_comm]
  unfold scale
  split
  case isTrue hk =>
    rw [hk, zero_mul]
    exact endsAt_point 0
  case isFalse =>
    split
    · exact ⟨htimes, htimes⟩
    · exact ⟨htimes, htimes⟩

theorem EndsAt.inter (ha : a.EndsAt x) (hb : b.EndsAt x) : (a.inter b).EndsAt x := by
  constructor
  · intro l hl
    rcases tighter_cases hl with ⟨r, s, hr, hs, rfl⟩ | h | h
    · rw [ha.1 r hr, hb.1 s hs]
      simp [greatestOf]
    · exact ha.1 l h
    · exact hb.1 l h
  · intro u hu
    rcases tighter_cases hu with ⟨r, s, hr, hs, rfl⟩ | h | h
    · rw [ha.2 r hr, hb.2 s hs]
      simp [leastOf]
    · exact ha.2 u h
    · exact hb.2 u h

/-- Where only one value is possible, the ends decide. -/
theorem entails_point {r : Relation} : (point x).entails r = true ↔ r.Holds x := by
  cases r with
  | ge => simp [entails, atLeast, point, Relation.Holds]
  | gt =>
    simp only [entails, atLeast, point, Option.any_some, decide_eq_true_eq, Relation.Holds]
    omega
  | eq => simp [entails, point, Relation.Holds]
  | ne =>
    simp only [entails, atLeast, atMost, point, Option.any_some, Bool.or_eq_true, decide_eq_true_eq,
      Relation.Holds]
    omega

end Interval

namespace Linear

variable {n : Nat}

/-- No product and no partial sum leaves its range where the form is evaluated. -/
structure Fits (f : Linear n) (v : Fin n → Int) : Prop where
  products : ∀ s ∈ f.summands, FitsIn int128Limit (s.2 * v s.1)
  sums : ∀ l ∈ f.summands.inits, FitsIn int128Limit (sumValue v l)
  total : FitsIn int128Limit (f.eval v)

instance (f : Linear n) (v : Fin n → Int) : Decidable (f.Fits v) :=
  decidable_of_iff ((∀ s ∈ f.summands, FitsIn int128Limit (s.2 * v s.1)) ∧
    (∀ l ∈ f.summands.inits, FitsIn int128Limit (sumValue v l)) ∧ FitsIn int128Limit (f.eval v))
    ⟨fun h => ⟨h.1, h.2.1, h.2.2⟩, fun h => ⟨h.products, h.sums, h.total⟩⟩

theorem sumValue_congr {v w : Fin n → Int} {l : List (Fin n × Int)} (h : ∀ s ∈ l, v s.1 = w s.1) :
    sumValue v l = sumValue w l := by
  unfold sumValue
  rw [List.map_congr_left fun s hs => by rw [h s hs]]

/-- Only the values of the variables that occur count. -/
theorem Fits.congr {f : Linear n} {v w : Fin n → Int} (h : f.Fits v)
    (hvw : ∀ s ∈ f.summands, v s.1 = w s.1) :
    f.Fits w where
  products s hs := hvw s hs ▸ h.products s hs
  sums l hl :=
    sumValue_congr (fun s hs => hvw s ((List.mem_inits l _).mp hl |>.subset hs)) ▸ h.sums l hl
  total := by
    have htotal := h.total
    rwa [eval_eq_sumValue, sumValue_congr hvw, ← eval_eq_sumValue] at htotal

theorem sumValue_append (v : Fin n → Int) (l : List (Fin n × Int)) (s : Fin n × Int) :
    sumValue v (l ++ [s]) = sumValue v l + s.2 * v s.1 := by
  simp [sumValue]

theorem mem_summands {f : Linear n} {x : Fin n} {k : Int} :
    (x, k) ∈ f.summands ↔ f.coeffs.get x = k ∧ k ≠ 0 := by
  constructor
  · intro h
    obtain ⟨y, -, hy⟩ := List.mem_filterMap.mp h
    split at hy
    case isTrue => cases hy
    case isFalse hne =>
      cases hy
      exact ⟨rfl, hne⟩
  · rintro ⟨rfl, hne⟩
    exact List.mem_filterMap.mpr ⟨x, List.mem_finRange x, if_neg hne⟩

end Linear

namespace Term

variable {n : Nat} {v : Fin n → Int}

/-- No operation of the term leaves its range. -/
def StepsFit (v : Fin n → Int) : Term (Fin n) → Prop
  | const _ | var _ => True
  | add l r => l.StepsFit v ∧ r.StepsFit v ∧ FitsIn int128Limit (l.eval v + r.eval v)
  | sub l r => l.StepsFit v ∧ r.StepsFit v ∧ FitsIn int128Limit (l.eval v - r.eval v)
  | mul l r => l.StepsFit v ∧ r.StepsFit v ∧ FitsIn int128Limit (l.eval v * r.eval v)

instance decidableStepsFit (v : Fin n → Int) : (t : Term (Fin n)) → Decidable (t.StepsFit v)
  | const _ | var _ => isTrue trivial
  | add l r | sub l r | mul l r =>
    have := decidableStepsFit v l
    have := decidableStepsFit v r
    inferInstanceAs (Decidable (_ ∧ _ ∧ _))

/-- No operation leaves its range where the term is evaluated, through its linear form if it
has one. -/
def Fits (v : Fin n → Int) (t : Term (Fin n)) : Prop :=
  match t.linear? with
  | some f => f.Fits v
  | none => t.StepsFit v

instance (v : Fin n → Int) (t : Term (Fin n)) : Decidable (t.Fits v) :=
  match h : t.linear? with
  | some f => decidable_of_iff (f.Fits v) (by rw [Fits, h])
  | none => decidable_of_iff (t.StepsFit v) (by rw [Fits, h])

/-- A linear form mentions variables of its term only. -/
theorem coeff_of_not_mem_vars {t : Term (Fin n)} {f : Linear n} (h : t.linear? = some f) {x : Fin n}
    (hx : x ∉ t.vars) : f.coeffs.get x = 0 := by
  induction t generalizing f with
  | const c =>
    obtain rfl := Option.some.inj h
    simp [Linear.ofConst]
  | var y =>
    obtain rfl := Option.some.inj h
    have hne : x ≠ y := fun heq => hx (heq ▸ List.mem_singleton_self x)
    simp [Linear.ofVar, hne]
  | add l r ihl ihr | sub l r ihl ihr =>
    simp only [linear?, Option.bind_eq_bind, Option.bind_eq_some_iff] at h
    obtain ⟨lf, hl, rf, hr, h⟩ := h
    obtain ⟨hxl, hxr⟩ := not_or.mp (mt List.mem_append.mpr hx)
    simp only [Linear.combine, Option.ite_none_right_eq_some, Option.some.injEq] at h
    obtain ⟨-, rfl⟩ := h
    simp [ihl hl hxl, ihr hr hxr]
  | mul l r ihl ihr =>
    simp only [linear?, Option.bind_eq_bind, Option.bind_eq_some_iff] at h
    obtain ⟨lf, hl, rf, hr, h⟩ := h
    obtain ⟨hxl, hxr⟩ := not_or.mp (mt List.mem_append.mpr hx)
    simp only [Linear.product, Linear.scale] at h
    split at h
    · simp only [Option.ite_none_right_eq_some, Option.some.injEq] at h
      obtain ⟨-, rfl⟩ := h
      simp [ihr hr hxr]
    · simp only [Option.ite_none_right_eq_some, Option.some.injEq] at h
      obtain ⟨-, -, rfl⟩ := h
      simp [ihl hl hxl]

theorem mem_vars_of_summand {t : Term (Fin n)} {f : Linear n} (h : t.linear? = some f)
    {x : Fin n} {k : Int} (hx : (x, k) ∈ f.summands) : x ∈ t.vars := by
  by_contra hout
  obtain ⟨hk, hne⟩ := Linear.mem_summands.mp hx
  exact hne (hk ▸ coeff_of_not_mem_vars h hout)

theorem StepsFit.congr {t : Term (Fin n)} {w : Fin n → Int} (h : t.StepsFit v)
    (hvw : ∀ x ∈ t.vars, v x = w x) : t.StepsFit w := by
  induction t with
  | const | var => trivial
  | add l r ihl ihr | sub l r ihl ihr | mul l r ihl ihr =>
    obtain ⟨hl, hr, hfits⟩ := h
    have hlw : ∀ x ∈ l.vars, v x = w x := fun x hx => hvw x (List.mem_append_left _ hx)
    have hrw : ∀ x ∈ r.vars, v x = w x := fun x hx => hvw x (List.mem_append_right _ hx)
    rw [eval_congr hlw, eval_congr hrw] at hfits
    exact ⟨ihl hl hlw, ihr hr hrw, hfits⟩

theorem Fits.congr {t : Term (Fin n)} {w : Fin n → Int} (h : t.Fits v)
    (hvw : ∀ x ∈ t.vars, v x = w x) :
    t.Fits w := by
  unfold Fits at h ⊢
  cases hf : t.linear? with
  | none =>
    rw [hf] at h
    exact StepsFit.congr h hvw
  | some f =>
    rw [hf] at h
    exact Linear.Fits.congr h fun s hs => hvw s.1 (mem_vars_of_summand hf hs)

end Term

end Lifespan
