import Lifespan.Proofs.Octagon.Arithmetic
import Lifespan.Proofs.Octagon.Canonical
import Lifespan.Proofs.Octagon.Refinement
import Mathlib.Algebra.Order.Ring.Abs

namespace Lifespan

namespace Interval

variable {a c : Interval} {b d e k : Int}

theorem atLeast_iff : a.atLeast d = true ↔ ∃ l, a.lo = some l ∧ d ≤ l := by
  simp [atLeast, Option.any_eq_true]

theorem atMost_iff : a.atMost d = true ↔ ∃ h, a.hi = some h ∧ h ≤ d := by
  simp [atMost, Option.any_eq_true]

/-- The ends that are known are at most `b` in size. -/
def EndsWithin (a : Interval) (b : Int) : Prop :=
  (∀ l, a.lo = some l → |l| ≤ b) ∧ ∀ h, a.hi = some h → |h| ≤ b

theorem endsWithin_point (x : Int) : (point x).EndsWithin |x| := by
  constructor <;> rintro y hy <;> rw [Option.some.inj hy]

namespace EndsWithin

theorem mono (h : a.EndsWithin b) (hbd : b ≤ d) : a.EndsWithin d :=
  ⟨fun l hl => (h.1 l hl).trans hbd, fun u hu => (h.2 u hu).trans hbd⟩

theorem neg (h : a.EndsWithin b) : a.neg.EndsWithin b := by
  constructor
  · intro l hl
    obtain ⟨u, hu, rfl⟩ := Option.map_eq_some_iff.mp hl
    rw [abs_neg]
    exact h.2 u hu
  · intro u hu
    obtain ⟨l, hl, rfl⟩ := Option.map_eq_some_iff.mp hu
    rw [abs_neg]
    exact h.1 l hl

theorem add (ha : a.EndsWithin b) (hc : c.EndsWithin d) : (a.add c).EndsWithin (b + d) := by
  constructor
  · intro l hl
    obtain ⟨r, s, hr, hs, rfl⟩ := sumEnds_eq_some hl
    exact (abs_add_le r s).trans (Int.add_le_add (ha.1 r hr) (hc.1 s hs))
  · intro u hu
    obtain ⟨r, s, hr, hs, rfl⟩ := sumEnds_eq_some hu
    exact (abs_add_le r s).trans (Int.add_le_add (ha.2 r hr) (hc.2 s hs))

theorem scale (h : a.EndsWithin b) (hk : k ≠ 0) : (a.scale k).EndsWithin (|k| * b) := by
  have htimes : ∀ x y, |x| ≤ b → signed? int128Limit (x * k) = some y → |y| ≤ |k| * b := by
    intro x y hx hy
    rw [signed?_eq_some hy, abs_mul, mul_comm]
    exact Int.mul_le_mul_of_nonneg_left hx (abs_nonneg k)
  have hlo : ∀ y, (a.lo.bind fun x => signed? int128Limit (x * k)) = some y → |y| ≤ |k| * b := by
    intro y hy
    obtain ⟨x, hx, hy⟩ := Option.bind_eq_some_iff.mp hy
    exact htimes x y (h.1 x hx) hy
  have hhi : ∀ y, (a.hi.bind fun x => signed? int128Limit (x * k)) = some y → |y| ≤ |k| * b := by
    intro y hy
    obtain ⟨x, hx, hy⟩ := Option.bind_eq_some_iff.mp hy
    exact htimes x y (h.2 x hx) hy
  unfold Interval.scale
  rw [if_neg hk]
  split
  · exact ⟨hlo, hhi⟩
  · exact ⟨hhi, hlo⟩

theorem inter (ha : a.EndsWithin b) (hc : c.EndsWithin b) : (a.inter c).EndsWithin b := by
  constructor
  · intro l hl
    rcases tighter_cases hl with ⟨r, s, hr, hs, rfl⟩ | h | h
    · unfold greatestOf
      split
      · exact hc.1 s hs
      · exact ha.1 r hr
    · exact ha.1 l h
    · exact hc.1 l h
  · intro u hu
    rcases tighter_cases hu with ⟨r, s, hr, hs, rfl⟩ | h | h
    · unfold leastOf
      split
      · exact ha.2 r hr
      · exact hc.2 s hs
    · exact ha.2 u h
    · exact hc.2 u h

/-- Adding nothing changes nothing as long as the ends are signed 128-bit integers. -/
theorem zero_add (h : a.EndsWithin b) (hb : b < int128Limit) : (point 0).add a = a := by
  obtain ⟨lo, hi⟩ := a
  have hend : ∀ p : Option Int, (∀ x, p = some x → |x| ≤ b) → sumEnds (some 0) p = p := by
    intro p hp
    cases p with
    | none => rfl
    | some x =>
      have hx := hp x rfl
      rw [sumEnds, Int.zero_add, signed?_of_fitsIn (fitsIn_of_abs_lt (by omega))]
  exact congr (congrArg mk (hend lo h.1)) (hend hi h.2)

end EndsWithin

/-- The smallest interval around the values of `f` on `S`: it contains them, and what bounds them
all bounds its ends. -/
structure Hull {α : Type} (a : Interval) (S : α → Prop) (f : α → Int) : Prop where
  contains : ∀ v, S v → a.Contains (f v)
  atLeast : ∀ d, (∀ v, S v → d ≤ f v) → a.atLeast d = true
  atMost : ∀ d, (∀ v, S v → f v ≤ d) → a.atMost d = true

theorem hull_point {α : Type} {S : α → Prop} (hS : ∃ v, S v) (x : Int) :
    (point x).Hull S fun _ => x := by
  obtain ⟨v, hv⟩ := hS
  refine ⟨fun _ _ => contains_point x, fun d hd => ?_, fun d hd => ?_⟩
  · exact atLeast_iff.mpr ⟨x, rfl, hd v hv⟩
  · exact atMost_iff.mpr ⟨x, rfl, hd v hv⟩

namespace Hull

variable {α : Type} {S : α → Prop} {f g : α → Int}

theorem congr (h : a.Hull S f) (hfg : ∀ v, f v = g v) : a.Hull S g := by
  rwa [funext hfg] at h

theorem neg (h : a.Hull S f) : a.neg.Hull S fun v => -f v := by
  refine ⟨fun v hv => (h.contains v hv).neg, fun d hd => ?_, fun d hd => ?_⟩
  · obtain ⟨u, hu, hle⟩ := atMost_iff.mp (h.atMost (-d) fun v hv => by have := hd v hv; omega)
    exact atLeast_iff.mpr ⟨-u, by simp [Interval.neg, hu], by omega⟩
  · obtain ⟨l, hl, hle⟩ := atLeast_iff.mp (h.atLeast (-d) fun v hv => by have := hd v hv; omega)
    exact atMost_iff.mpr ⟨-l, by simp [Interval.neg, hl], by omega⟩

theorem add_point (h : a.Hull S f) (hb : a.EndsWithin b) (hfits : b + |e| < int128Limit) :
    (a.add (point e)).Hull S fun v => f v + e := by
  have hend : ∀ x, |x| ≤ b → signed? int128Limit (x + e) = some (x + e) := by
    intro x hx
    have hsum := abs_add_le x e
    exact signed?_of_fitsIn (fitsIn_of_abs_lt (by omega))
  refine ⟨fun v hv => (h.contains v hv).add (contains_point e), fun d hd => ?_, fun d hd => ?_⟩
  · obtain ⟨l, hl, hle⟩ := atLeast_iff.mp (h.atLeast (d - e) fun v hv => by have := hd v hv; omega)
    refine atLeast_iff.mpr ⟨l + e, ?_, by omega⟩
    simp only [Interval.add, point, hl, sumEnds, hend l (hb.1 l hl)]
  · obtain ⟨u, hu, hle⟩ := atMost_iff.mp (h.atMost (d - e) fun v hv => by have := hd v hv; omega)
    refine atMost_iff.mpr ⟨u + e, ?_, by omega⟩
    simp only [Interval.add, point, hu, sumEnds, hend u (hb.2 u hu)]

/-- A bound on the multiples is one on the values, rounded inwards. -/
theorem scale_of_pos (h : a.Hull S f) (hb : a.EndsWithin b) (hk : 0 < k)
    (hfits : k * b < int128Limit) :
    (a.scale k).Hull S fun v => k * f v := by
  have hend : ∀ x, |x| ≤ b → signed? int128Limit (x * k) = some (x * k) := by
    intro x hx
    have hle := Int.mul_le_mul_of_nonneg_left hx hk.le
    have habs : |x * k| = k * |x| := by rw [abs_mul, abs_of_pos hk, mul_comm]
    exact signed?_of_fitsIn (fitsIn_of_abs_lt (by omega))
  have hscale : a.scale k = ⟨a.lo.bind fun x => signed? int128Limit (x * k),
      a.hi.bind fun x => signed? int128Limit (x * k)⟩ := by
    rw [Interval.scale, if_neg (by omega), if_pos hk]
  refine ⟨fun v hv => (h.contains v hv).scale k, fun d hd => ?_, fun d hd => ?_⟩
  · have hbelow : ∀ v, S v → -(-d / k) ≤ f v := by
      intro v hv
      have hmul := hd v hv
      have hdiv : -f v ≤ -d / k := by
        rw [Int.le_ediv_iff_mul_le hk, Int.neg_mul, mul_comm]
        omega
      omega
    obtain ⟨l, hl, hle⟩ := atLeast_iff.mp (h.atLeast _ hbelow)
    have hmul : -l * k ≤ -d := (Int.le_ediv_iff_mul_le hk).mp (by omega)
    rw [Int.neg_mul] at hmul
    rw [hscale]
    exact atLeast_iff.mpr ⟨l * k, by rw [hl]; exact hend l (hb.1 l hl), by omega⟩
  · have habove : ∀ v, S v → f v ≤ d / k := by
      intro v hv
      rw [Int.le_ediv_iff_mul_le hk, mul_comm]
      exact hd v hv
    obtain ⟨u, hu, hle⟩ := atMost_iff.mp (h.atMost _ habove)
    have hmul : u * k ≤ d := (Int.le_ediv_iff_mul_le hk).mp hle
    rw [hscale]
    exact atMost_iff.mpr ⟨u * k, by rw [hu]; exact hend u (hb.2 u hu), hmul⟩

theorem scale_neg_eq (a : Interval) (hk : k < 0) : a.scale k = a.neg.scale (-k) := by
  rw [Interval.scale, Interval.scale, if_neg (by omega), if_neg (by omega), if_neg (by omega),
    if_pos (by omega)]
  simp only [Interval.neg, Option.bind_map, Function.comp_def, Int.neg_mul_neg]

theorem scale (h : a.Hull S f) (hb : a.EndsWithin b) (hk : k ≠ 0) (hfits : |k| * b < int128Limit) :
    (a.scale k).Hull S fun v => k * f v := by
  rcases lt_or_gt_of_ne hk with hneg | hpos
  · rw [abs_of_neg hneg] at hfits
    rw [scale_neg_eq a hneg]
    exact (h.neg.scale_of_pos hb.neg (by omega) hfits).congr fun v => Int.neg_mul_neg _ _
  · rw [abs_of_pos hpos] at hfits
    exact h.scale_of_pos hb hpos hfits

/-- A hull is not changed by what is also known of the values. -/
theorem inter (h : a.Hull S f) (hc : ∀ v, S v → c.Contains (f v)) : (a.inter c).Hull S f := by
  refine ⟨fun v hv => (h.contains v hv).inter (hc v hv), fun d hd => ?_, fun d hd => ?_⟩
  · obtain ⟨l, hl, hle⟩ := atLeast_iff.mp (h.atLeast d hd)
    cases hr : c.lo with
    | none => exact atLeast_iff.mpr ⟨l, by simp [Interval.inter, tighter, hl, hr], hle⟩
    | some r =>
      have hmax := (le_greatestOf l r).1
      exact atLeast_iff.mpr ⟨greatestOf l r, by simp [Interval.inter, tighter, hl, hr], by omega⟩
  · obtain ⟨u, hu, hle⟩ := atMost_iff.mp (h.atMost d hd)
    cases hr : c.hi with
    | none => exact atMost_iff.mpr ⟨u, by simp [Interval.inter, tighter, hu, hr], hle⟩
    | some r =>
      have hmin := (leastOf_le u r).1
      exact atMost_iff.mpr ⟨leastOf u r, by simp [Interval.inter, tighter, hu, hr], by omega⟩

theorem exists_le (h : a.Hull S f) (hd : a.Contains d) : ∃ v, S v ∧ f v ≤ d := by
  by_contra hnone
  obtain ⟨l, hl, hle⟩ := atLeast_iff.mp (h.atLeast (d + 1) fun v hv => by
    by_contra hlt
    exact hnone ⟨v, hv, by omega⟩)
  have hld := hd.1 l hl
  omega

theorem exists_ge (h : a.Hull S f) (hd : a.Contains d) : ∃ v, S v ∧ d ≤ f v := by
  by_contra hnone
  obtain ⟨u, hu, hle⟩ := atMost_iff.mp (h.atMost (d - 1) fun v hv => by
    by_contra hlt
    exact hnone ⟨v, hv, by omega⟩)
  have hdu := hd.2 u hu
  omega

/-- The ends of a hull decide every comparison of its values with zero but the disequation. -/
theorem entails_iff (h : a.Hull S f) (hS : ∃ v, S v) {r : Relation} (hr : r ≠ .ne) :
    a.entails r = true ↔ ∀ v, S v → r.Holds (f v) := by
  refine ⟨fun hent v hv => (h.contains v hv).holds_of_entails hent, fun hall => ?_⟩
  cases r with
  | ge => exact h.atLeast 0 hall
  | gt => exact h.atLeast 1 hall
  | eq =>
    obtain ⟨v, hv⟩ := hS
    have hzero : ∀ v, S v → f v = 0 := hall
    have hmem := h.contains v hv
    rw [hzero v hv] at hmem
    obtain ⟨l, hl, hle⟩ := atLeast_iff.mp (h.atLeast 0 fun v hv => (hzero v hv).ge)
    obtain ⟨u, hu, hue⟩ := atMost_iff.mp (h.atMost 0 fun v hv => (hzero v hv).le)
    have hl0 := hmem.1 l hl
    have hu0 := hmem.2 u hu
    obtain rfl : l = 0 := by omega
    obtain rfl : u = 0 := by omega
    obtain ⟨lo, hi⟩ := a
    subst hl hu
    exact decide_eq_true (rfl : point 0 = point 0)
  | ne => exact absurd rfl hr

end Hull

end Interval

namespace Matrix

open Linear

variable {n : Nat} {m : Matrix n} {i j : Literal n} {f : Linear n} {b d : Int}

theorem Within.interval (h : m.Within b) (x : Fin n) : (m.interval x).EndsWithin b := by
  have hupper : ∀ (i : Literal n) (c : Int), m.upper? i = some c → |c| ≤ b := by
    intro i c hc
    obtain ⟨e, he, rfl⟩ := Option.map_eq_some_iff.mp hc
    exact (Int.abs_ediv_le_abs e 2).trans (h _ _ _ (Bound.toInt?_eq_some.mp he))
  constructor
  · intro l hl
    obtain ⟨c, hc, rfl⟩ := Option.map_eq_some_iff.mp hl
    rw [abs_neg]
    exact hupper _ c hc
  · intro u hu
    exact hupper _ u hu

theorem Within.unitPair (h : m.Within b) (x y : Fin n) (k l : Int) :
    (⟨(m.upperSum? (.ofUnit (-k) x) (.ofUnit (-l) y)).map (-·),
      m.upperSum? (.ofUnit k x) (.ofUnit l y)⟩ : Interval).EndsWithin b := by
  constructor
  · intro c hc
    obtain ⟨e, he, rfl⟩ := Option.map_eq_some_iff.mp hc
    rw [abs_neg]
    exact h _ _ _ (Bound.toInt?_eq_some.mp he)
  · intro c hc
    exact h _ _ _ (Bound.toInt?_eq_some.mp hc)

theorem range_of_constant (m : Matrix n) (hf : f.summands = [])
    (hfits : |f.constant| < int128Limit) :
    m.range f = .point f.constant := by
  rw [← (Interval.endsWithin_point f.constant).zero_add hfits]
  simp [range, sumOf, hf, unitPair?]

theorem abs_of_natAbs_eq_one {k : Int} (hk : k.natAbs = 1) : |k| = 1 := by
  rw [Int.abs_eq_natAbs, hk]
  rfl

theorem Within.range_of_scaled (h : m.Within b) {x : Fin n} {k : Int} (hf : f.summands = [(x, k)])
    (hfits : |k| * b < int128Limit) :
    m.range f = ((m.interval x).scale k).add (.point f.constant) := by
  have hmem : (x, k) ∈ f.summands := by simp [hf]
  rw [← ((h.interval x).scale (mem_summands.mp hmem).2).zero_add hfits]
  simp [range, sumOf, hf, unitPair?]

/-- Only the lower end of a sum of two variables is negated. -/
theorem Within.inRange_rangeTraced (h : m.Within b) (hb : b < int128Limit) (hf : f.IsOctagonal) :
    (m.rangeTraced f).InRange := by
  cases hf with
  | constant hsummands | scaled x k hsummands =>
    rw [rangeTraced, hsummands]
    exact Traced.inRange_pure _
  | pair x y k l hk hl hsummands =>
    have hsize : ∀ a : Int, a.natAbs = 1 → (Traced.perform (.size a)).InRange := by
      intro a ha
      rw [Traced.inRange_perform, Operation.result, ha]
      decide
    have hpair : (unitPairTraced? [(x, k), (y, l)]).InRange := by
      refine Traced.inRange_bind.mpr ⟨hsize k hk, ?_⟩
      rw [Traced.value_perform, if_neg fun h => Operation.size_ne_one.mp h hk]
      refine Traced.inRange_bind.mpr ⟨hsize l hl, ?_⟩
      rw [Traced.value_perform, if_neg fun h => Operation.size_ne_one.mp h hl]
      exact Traced.inRange_pure _
    have hvalue : unitPair? [(x, k), (y, l)] = some ((x, k), (y, l)) := by simp [unitPair?, hk, hl]
    rw [rangeTraced, hsummands]
    refine Traced.inRange_bind.mpr ⟨hpair, ?_⟩
    rw [value_unitPairTraced?, hvalue]
    refine Traced.inRange_bind.mpr ⟨?_, Traced.inRange_pure _⟩
    cases hupper : m.upperSum? (.ofUnit (-k) x) (.ofUnit (-l) y) with
    | none => exact Traced.inRange_pure _
    | some c =>
      have hc := h _ _ _ (Bound.toInt?_eq_some.mp hupper)
      refine Traced.inRange_bind.mpr ⟨Traced.inRange_perform.mpr ?_, Traced.inRange_pure _⟩
      apply fitsIn_of_abs_lt
      rw [Operation.result, abs_neg]
      omega

namespace Tight

theorem exists_upper? (hm : m.Tight) (h : ∀ v, m.Point v → i.value v ≤ d) :
    ∃ c, m.upper? i = some c ∧ c ≤ d := by
  have hbound : m.Bounds i.bar i (2 * d) := by
    apply hm.bounds_iff.mpr
    intro v hv
    have hle := h v hv
    rw [Literal.value_bar]
    omega
  obtain ⟨c, hc, hle⟩ := hbound.exists_get
  exact ⟨c / 2, by rw [upper?, hc]; rfl, by omega⟩

theorem exists_upperSum? (hm : m.Tight) (h : ∀ v, m.Point v → i.value v + j.value v ≤ d) :
    ∃ c, m.upperSum? i j = some c ∧ c ≤ d := by
  have hbound : m.Bounds j.bar i d := by
    apply hm.bounds_iff.mpr
    intro v hv
    have hle := h v hv
    rw [Literal.value_bar]
    omega
  obtain ⟨c, hc, hle⟩ := hbound.exists_get
  exact ⟨c, by rw [upperSum?, hc]; rfl, hle⟩

theorem hull_interval (hm : m.Tight) (x : Fin n) : (m.interval x).Hull m.Point fun v => v x := by
  refine ⟨fun v hv => hv.interval x, fun d hd => ?_, fun d hd => ?_⟩
  · obtain ⟨c, hc, hle⟩ := hm.exists_upper? (i := .neg x) (d := -d) fun v hv => by
      have := hd v hv
      rw [Literal.value_neg]
      omega
    exact Interval.atLeast_iff.mpr ⟨-c, by rw [interval, hc]; rfl, by omega⟩
  · obtain ⟨c, hc, hle⟩ := hm.exists_upper? (i := .pos x) hd
    exact Interval.atMost_iff.mpr ⟨c, hc, hle⟩

theorem hull_unitPair (hm : m.Tight) {x y : Fin n} {k l : Int} (hk : k.natAbs = 1)
    (hl : l.natAbs = 1) :
    (⟨(m.upperSum? (.ofUnit (-k) x) (.ofUnit (-l) y)).map (-·),
      m.upperSum? (.ofUnit k x) (.ofUnit l y)⟩ : Interval).Hull m.Point fun v =>
      k * v x + l * v y := by
  refine ⟨fun v hv => hv.unitPair hk hl, fun d hd => ?_, fun d hd => ?_⟩
  · obtain ⟨c, hc, hle⟩ := hm.exists_upperSum? (i := .ofUnit (-k) x) (j := .ofUnit (-l) y) (d := -d)
      fun v hv => by
        have := hd v hv
        rw [Literal.value_ofUnit (natAbs_neg_eq_one hk), Literal.value_ofUnit
          (natAbs_neg_eq_one hl), neg_mul, neg_mul]
        omega
    exact Interval.atLeast_iff.mpr ⟨-c, by rw [hc]; rfl, by omega⟩
  · obtain ⟨c, hc, hle⟩ := hm.exists_upperSum? (i := .ofUnit k x) (j := .ofUnit l y) (d := d)
      fun v hv => by
        rw [Literal.value_ofUnit hk, Literal.value_ofUnit hl]
        exact hd v hv
    exact Interval.atMost_iff.mpr ⟨c, hc, hle⟩

/-- The range of an octagonal form is the hull of its values. -/
theorem hull_range (hm : m.Tight) (hb : m.Within b) (h0 : 0 ≤ b) (hf : f.IsOctagonal)
    (hfits : 2 * b + |f.constant| < int128Limit)
    (hcoeffs : ∀ s ∈ f.summands, |s.2| * b + |f.constant| < int128Limit) :
    (m.range f).Hull m.Point fun v => f.eval v := by
  have hnonneg := abs_nonneg f.constant
  cases hf with
  | constant h =>
    rw [m.range_of_constant h (by omega)]
    refine (Interval.hull_point hm.exists_point f.constant).congr ?_
    intro v
    simp [eval_eq_sumValue, h]
  | scaled x k h =>
    have hmem : (x, k) ∈ f.summands := by simp [h]
    have hk := (mem_summands.mp hmem).2
    have hfit : |k| * b + |f.constant| < int128Limit := hcoeffs (x, k) hmem
    have hproduct : |k| * b < int128Limit := by omega
    have hends := (hb.interval x).scale hk
    rw [hb.range_of_scaled h hproduct]
    have hhull := ((hm.hull_interval x).scale (hb.interval x) hk hproduct).add_point hends hfit
    apply hhull.congr
    intro v
    simp [eval_eq_sumValue, h]
  | pair x y k l hk hl h =>
    have hsum : (m.sumOf f.summands).EndsWithin (2 * b) := by
      have hunit : ∀ (z : Fin n) (u : Int), u.natAbs = 1 →
          ((m.interval z).scale u).EndsWithin b := by
        intro z u hu
        have hscaled := (hb.interval z).scale (k := u) (by rintro rfl; cases hu)
        rwa [abs_of_natAbs_eq_one hu, one_mul] at hscaled
      have htwo := ((Interval.endsWithin_point 0).add (hunit x k hk)).add (hunit y l hl)
      rw [h]
      apply Interval.EndsWithin.mono htwo
      rw [abs_zero]
      omega
    have hrange : m.range f =
        (Interval.inter ⟨(m.upperSum? (.ofUnit (-k) x) (.ofUnit (-l) y)).map (-·),
          m.upperSum? (.ofUnit k x) (.ofUnit l y)⟩ (m.sumOf f.summands)).add
            (.point f.constant) := by
      simp [range, h, unitPair?, hk, hl]
    have hinter : ∀ v, m.Point v → (m.sumOf f.summands).Contains (k * v x + l * v y) := by
      intro v hv
      simpa [h] using hv.sumOf f.summands
    rw [hrange]
    have hends := ((hb.unitPair x y k l).mono (show b ≤ 2 * b by omega)).inter hsum
    have hhull := ((hm.hull_unitPair hk hl).inter hinter).add_point hends hfits
    apply hhull.congr
    intro v
    simp [eval_eq_sumValue, h]

end Tight

end Matrix

/-- Bounded arithmetic does not deny a constraint that holds. -/
theorem Constraint.holds?_ne_false {α : Type} {c : Constraint α} {v : α → Int} (hc : c.Holds v)
    {u : α → Option Int} (hu : ∀ x a, u x = some a → v x = a) : c.holds? u ≠ some false := by
  intro hfalse
  exact Bool.false_ne_true ((holds_of_holds? hu hfalse).mpr hc)

/-- The least signed 128-bit integer, from factors of 64 bits. -/
def Term.lowest {α : Type} : Term α :=
  .mul (.mul (.const (-int64Limit)) (.const 0x4000000000000000)) (.const 4)

namespace Octagon

variable {n : Nat} {s : Octagon n} {c : Constraint (Fin n)} {f : Linear n} {B : Int}

/-- An octagonal constraint that holds at every point is found to hold. -/
theorem satisfies_of_points (hs : Built Matrix.Small s) (hB : s.Within B)
    (hf : c.term.linear? = some f) (hoct : f.IsOctagonal) (hrel : c.relation ≠ .ne)
    (hconst : |f.constant| ≤ B) (hlimit : 4 * (2 * n + 1) * (B + 1) < Bound.limit)
    (hcoeffs : ∀ p ∈ f.summands, |p.2| * (2 * n + 1) * (B + 1) < Bound.limit)
    (hall : ∀ v, s.Point v → c.Holds v) : s.satisfies c = true := by
  cases hm : s.closure? with
  | none => simp [satisfies, hm]
  | some m =>
    have h0 : 0 ≤ B := (abs_nonneg f.constant).trans hconst
    have htight := hs.tight_of_closure? (hB.closable hlimit) hm
    have hwithin := hs.within_closure? hB h0 hlimit hm
    have hwide : 2 * Bound.limit < int128Limit := by decide
    have hle : B + 1 ≤ (2 * n + 1) * (B + 1) := le_mul_of_one_le_left (by omega) (by omega)
    have hhull : (m.range f).Hull m.Point fun v => f.eval v := by
      apply htight.hull_range hwithin (by omega) hoct
      · rw [mul_assoc] at hlimit
        omega
      · intro p hp
        have hproduct := hcoeffs p hp
        rw [mul_assoc] at hproduct hlimit
        omega
    have hrange : m.rangeOf c.term = m.range f := by simp [Matrix.rangeOf, hf]
    simp only [satisfies, hm]
    rw [hrange, hhull.entails_iff htight.exists_point hrel]
    intro v hv
    rw [Term.eval_linear? v hf]
    exact hall v ((point_of_closure? hm).mpr hv)

/-- No operation overflows on the way to the answer, if there is a point. -/
theorem inRange_satisfiesTraced {v : Fin n → Int} (hs : Built Matrix.Small s) (hB : s.Within B)
    (hf : c.term.linear? = some f) (hoct : f.IsOctagonal) (h0 : 0 ≤ B)
    (hlimit : 4 * (2 * n + 1) * (B + 1) < Bound.limit) (hv : s.Point v) :
    (s.satisfiesTraced c).InRange := by
  have hwide : 2 * Bound.limit < int128Limit := by decide
  have hsize : 4 * (2 * n + 1) * (B + 1) = 2 * (2 * (2 * n * B)) + 4 * (2 * n + B + 1) := by ring
  have hprod : 0 ≤ 2 * n * B := Int.mul_nonneg (by omega) h0
  have hclose : s.closureTraced?.InRange := by
    cases s with
    | empty | tight m => exact Traced.inRange_pure _
    | loose m =>
      have hrange :=
        Matrix.within_closeTraced? (point_loose.mp hv) (hB m rfl) h0 (by omega)
      exact hrange.1.inRange (by omega)
  refine Traced.inRange_bind.mpr ⟨hclose, ?_⟩
  rw [value_closureTraced?]
  cases hm : s.closure? with
  | none => exact Traced.inRange_pure _
  | some m =>
    have hwithin := hs.within_closure? hB h0 hlimit hm
    have hrange : m.rangeOfTraced c.term = m.rangeTraced f := by rw [Matrix.rangeOfTraced, hf]
    refine Traced.inRange_bind.mpr ⟨?_, Traced.inRange_pure _⟩
    rw [hrange]
    have hlarge : 4 * (2 * n + 1) * (B + 1) = 4 * ((2 * n + 1) * (B + 1)) := by ring
    exact hwithin.inRange_rangeTraced (by omega) hoct

/-- `x + y ≤ 1` and `x ≤ y`. -/
def corner : Octagon 2 :=
  ((top 2).meet ⟨.sub (.const 1) (.add (.var xVar) (.var yVar)), .ge⟩).meet
    ⟨.sub (.var yVar) (.var xVar), .ge⟩

theorem built_corner : Built Matrix.Small corner := by
  have hfirst : ∀ m ∈ (top 2).refined? ⟨.sub (.const 1) (.add (.var xVar) (.var yVar)), .ge⟩,
      m.Within 1 := by
    decide +kernel
  have hsecond : ∀ m ∈ ((top 2).meet ⟨.sub (.const 1) (.add (.var xVar) (.var yVar)), .ge⟩).refined?
      ⟨.sub (.var yVar) (.var xVar), .ge⟩, m.Within 1 := by decide +kernel
  have hhalf : Built Matrix.Small
      ((top 2).meet ⟨.sub (.const 1) (.add (.var xVar) (.var yVar)), .ge⟩) :=
    .meet .top (fun _ h => nomatch h) _ fun m hm => ⟨1, by decide, hfirst m hm⟩
  exact hhalf.meet (closable_meet _ _) _ fun m hm => ⟨1, by decide, hsecond m hm⟩

theorem within_corner : corner.Within 1 := by
  have hcells : ∀ m ∈ corner.matrix?, m.Within 1 := by decide +kernel
  exact hcells

theorem point_corner {v : Fin 2 → Int} : corner.Point v ↔
    v xVar + v yVar ≤ 1 ∧ v xVar ≤ v yVar := by
  constructor
  · intro hv
    have hsum := hv.holds_of_satisfies (c := ⟨.sub (.const 1) (.add (.var xVar) (.var yVar)), .ge⟩)
      (by decide +kernel)
    have hdiff :=
      hv.holds_of_satisfies (c := ⟨.sub (.var yVar) (.var xVar), .ge⟩) (by decide +kernel)
    change 0 ≤ 1 - (v xVar + v yVar) at hsum
    change 0 ≤ v yVar - v xVar at hdiff
    omega
  · rintro ⟨hsum, hdiff⟩
    apply ((point_top v).meet _).meet
    · change 0 ≤ v yVar - v xVar
      omega
    · change 0 ≤ 1 - (v xVar + v yVar)
      omega

/-- `x * x - k * x`, where `k` is the least integer. -/
def overflowing : Term (Fin 2) := .sub (.mul (.var xVar) (.var xVar)) (.mul (.var xVar) .lowest)

end Octagon

end Lifespan
