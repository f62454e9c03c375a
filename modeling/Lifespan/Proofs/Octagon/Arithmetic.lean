import Lifespan.Proofs.Octagon.Magnitude
import Lifespan.Proofs.Octagon.Traced

namespace Lifespan

namespace Bound

variable {a b : Bound} {c w W : Int}

/-- A number it stands for is at most `W` in size. -/
def Sized (b : Bound) (W : Int) : Prop := ∀ c, b = finite c → |c| ≤ W

theorem sized_absent : absent.Sized W := by
  intro c hc
  cases hc

theorem sized_finite : (finite c).Sized W ↔ |c| ≤ W := by
  simp [Sized]

theorem sized_ofInt (h : |c| ≤ W) : (ofInt c).Sized W := by
  unfold ofInt
  split
  · exact sized_finite.mpr h
  · exact sized_absent

theorem Sized.min (ha : a.Sized W) (hb : b.Sized W) : (min a b).Sized W := by
  intro c hc
  cases a with
  | absent => exact hb c hc
  | finite x =>
    cases b with
    | absent => exact ha c hc
    | finite y =>
      change finite (if x ≤ y then x else y) = finite c at hc
      split at hc
      · exact ha c hc
      · exact hb c hc

theorem within_addTraced (ha : a.Sized W) (hb : b.Sized W) : (a.addTraced b).Within (2 * W) := by
  cases a with
  | absent => exact Traced.within_pure _
  | finite x =>
    cases b with
    | absent => exact Traced.within_pure _
    | finite y =>
      have hx := abs_le.mp (sized_finite.mp ha)
      have hy := abs_le.mp (sized_finite.mp hb)
      have hsum : |x + y| ≤ 2 * W := abs_le.mpr (by omega)
      exact (Traced.within_perform (.sum x y) hsum).bind (Traced.within_pure _)

/-- Rounding to an even number does not pass an even one. -/
theorem within_evenTraced (ha : a.Sized (2 * w)) :
    a.evenTraced.Within (2 * (2 * w)) ∧ a.evenTraced.value.Sized (2 * w) := by
  cases a with
  | absent => exact ⟨Traced.within_pure _, sized_absent⟩
  | finite x =>
    have hx := abs_le.mp (sized_finite.mp ha)
    have hhalf : |x / 2| ≤ 2 * (2 * w) := abs_le.mpr (by omega)
    have hround : |2 * (x / 2)| ≤ 2 * w := abs_le.mpr (by omega)
    have hdouble : |2 * (x / 2)| ≤ 2 * (2 * w) := abs_le.mpr (by omega)
    exact ⟨(Traced.within_perform (.half x) hhalf).bind
      ((Traced.within_perform (.double (x / 2)) hdouble).bind (Traced.within_pure _)),
        sized_finite.mpr hround⟩

theorem within_halfSumTraced (ha : a.Sized W) (hb : b.Sized W) :
    (a.halfSumTraced b).Within (2 * W) ∧ (a.halfSumTraced b).value.Sized W := by
  cases a with
  | absent => exact ⟨Traced.within_pure _, sized_absent⟩
  | finite x =>
    cases b with
    | absent => exact ⟨Traced.within_pure _, sized_absent⟩
    | finite y =>
      have hx := abs_le.mp (sized_finite.mp ha)
      have hy := abs_le.mp (sized_finite.mp hb)
      have hsum : |x + y| ≤ 2 * W := abs_le.mpr (by omega)
      have hhalf : |(x + y) / 2| ≤ W := abs_le.mpr (by omega)
      have hwide : |(x + y) / 2| ≤ 2 * W := abs_le.mpr (by omega)
      exact ⟨(Traced.within_perform (.sum x y) hsum).bind
        ((Traced.within_perform (.half (x + y)) hwide).bind (Traced.within_pure _)),
          sized_ofInt hhalf⟩

end Bound

namespace Matrix

variable {n : Nat} {m t s : Matrix n} {i j k p q : Literal n} {B w W : Int} {v : Fin n → Int}

theorem Within.sized (h : m.Within W) (i j : Literal n) : (m.get i j).Sized W := h i j

theorem Within.set {b : Bound} (h : m.Within W) (hb : b.Sized W) (i j : Literal n) :
    (m.set i j b).Within W := by
  intro p q c hc
  rw [get_set] at hc
  split at hc
  · exact hb c hc
  · exact h p q c hc

theorem within_tightenTraced (h : m.Within (2 * w)) :
    m.tightenTraced.Within (2 * (2 * w)) ∧ m.tightenTraced.value.Within (2 * w) := by
  refine Traced.within_foldlM (P := (Within · (2 * w))) (fun m i hm => ?_) _ h
  have heven := Bound.within_evenTraced (hm.sized i i.bar)
  rw [Traced.value_bind]
  exact ⟨heven.1.bind (Traced.within_pure _), hm.set heven.2 i i.bar⟩

theorem within_strengthenTraced (h : m.Within W) :
    m.strengthenTraced.Within (2 * W) ∧ m.strengthenTraced.value.Within W := by
  refine Traced.within_foldlM (P := (Within · W)) (fun m i hm => ?_) _ h
  have hunary := hm.sized i i.bar
  refine Traced.within_foldlM (P := (Within · W)) (fun m j hm => ?_) _ hm
  have hhalf := Bound.within_halfSumTraced hunary (hm.sized j.bar j)
  rw [Traced.value_bind]
  exact ⟨hhalf.1.bind (Traced.within_pure _), hm.set ((hm.sized i j).min hhalf.2) i j⟩

theorem within_finishTraced? (h : m.Within W) (h0 : 0 ≤ W) (l : List (Literal n)) :
    (m.finishTraced? l).Within (2 * W) ∧ ∀ k ∈ (m.finishTraced? l).value, k.Within W := by
  induction l generalizing m with
  | nil =>
    refine ⟨Traced.within_pure _, fun k hk => ?_⟩
    exact Option.some.inj hk ▸ h
  | cons i l ih =>
    have hsum := Bound.within_addTraced (h.sized i i.bar) (h.sized i.bar i)
    have hzero : (Bound.finite 0).Sized W := Bound.sized_finite.mpr (by simpa using h0)
    rw [finishTraced?]
    refine ⟨hsum.bind ?_, ?_⟩
    · split
      · exact Traced.within_pure _
      · exact (ih (h.set hzero i i)).1
    · rw [Traced.value_bind]
      split
      · intro k hk
        cases hk
      · exact (ih (h.set hzero i i)).2

/-- Paths through `k` do not change the column of `k`, unless a cycle through it is negative. -/
theorem get_pivot_column (h : (m.get k k).isNegative = false) :
    (m.pivot k).get p k = m.get p k := by
  rw [get_pivot]
  cases hp : m.get p k with
  | absent => rfl
  | finite c =>
    apply Bound.eq_of_le_finite_iff
    intro d
    rw [Bound.min_le_finite]
    refine ⟨?_, .inl⟩
    rintro (hd | hd)
    · exact hd
    · obtain ⟨a, b, ha, hb, -, hle⟩ := Bound.add_le_finite.mp hd
      cases ha
      have hb0 : 0 ≤ b := by simpa [hb, Bound.isNegative] using h
      rw [Bound.finite_le_finite]
      omega

/-- Each cell of `s` is as in `t`, or as the pivot leaves it. -/
def Between (t : Matrix n) (k : Literal n) (s : Matrix n) : Prop :=
  ∀ p q, s.get p q = t.get p q ∨ s.get p q = (t.pivot k).get p q

theorem Between.within (h : t.Between k s) (ht : t.Within W) (hpivot : (t.pivot k).Within W) :
    s.Within W := by
  intro p q c hc
  rcases h p q with hcell | hcell
  · exact ht p q c (hcell ▸ hc)
  · exact hpivot p q c (hcell ▸ hc)

section Pivot

variable (hloop : (t.get k k).isNegative = false)

include hloop

/-- The cells that a pivot reads are not written while it goes on. -/
theorem Between.set {c : Int} (h : t.Between k s) (hc : t.get i k = .finite c) (j : Literal n) :
    t.Between k (s.set i j (min (s.get i j) (.finite c + s.get k j))) := by
  have hrow : s.get k j = t.get k j := (h k j).elim id (·.trans (get_pivot_self hloop))
  have hnew : (t.pivot k).get i j = min (t.get i j) (.finite c + t.get k j) := by rw [get_pivot, hc]
  intro p q
  rw [get_set]
  split
  case isTrue hpq =>
    obtain ⟨rfl, rfl⟩ := hpq
    apply Or.inr
    rw [hrow, hnew]
    rcases h i j with hcell | hcell
    · rw [hcell]
    · rw [hcell, hnew]
      apply Bound.eq_of_le_finite_iff
      intro d
      rw [Bound.min_le_finite, Bound.min_le_finite]
      tauto
  case isFalse => exact h p q

theorem within_pivotTraced (ht : t.Within W) (hpivot : (t.pivot k).Within W) :
    (t.pivotTraced k).Within (2 * W) := by
  refine (Traced.within_foldlM (P := t.Between k) (fun s i hs => ?_) _ fun _ _ => .inl rfl).1
  have hcolumn : s.get i k = t.get i k := (hs i k).elim id (·.trans (get_pivot_column hloop))
  rw [relaxRowTraced.eq_def, hcolumn]
  cases hc : t.get i k with
  | absent => exact ⟨Traced.within_pure _, hs⟩
  | finite c =>
    have hsized : (Bound.finite c).Sized W := hc ▸ ht.sized i k
    refine Traced.within_foldlM (P := t.Between k) (fun s j hs => ⟨?_, ?_⟩) _ hs
    · have hsum := Bound.within_addTraced hsized ((hs.within ht hpivot).sized k j)
      exact hsum.bind (Traced.within_pure _)
    · rw [Traced.value_bind, Traced.value_pure, Bound.value_addTraced]
      exact hs.set hloop hc j

end Pivot

/-- What holds of the matrices that pivots make of `m`, which has the point `v`. -/
structure Midway (m : Matrix n) (v : Fin n → Int) (t : Matrix n) : Prop where
  relaxed : ∃ s, m.Relaxed s t
  walk : ∀ i j c, t.Bounds i j c → m.Walk (Literal.all n).toFinset i j c
  point : t.Point v

theorem midway_start (h : m.Point v) : m.Midway v m :=
  ⟨⟨∅, relaxed_start m⟩, fun _ _ _ hc => .direct hc, h⟩

namespace Midway

theorem not_isNegative (h : m.Midway v t) (k : Literal n) : (t.get k k).isNegative = false := by
  rw [← Bool.not_eq_true, Bound.isNegative_iff]
  intro hneg
  have hle := h.point.le_of_bounds hneg
  omega

theorem within (h : m.Midway v t) (hv : m.Point v) (hB : m.Within B) (h0 : 0 ≤ B) :
    t.Within (2 * n * B) := by
  obtain ⟨s, hs⟩ := h.relaxed
  have hbelow : m.Below B := fun i j c hc => (abs_le.mp (hB i j c hc)).2
  intro i j c hc
  have hlow := (h.walk i j c (bounds_of_get hc)).neg_le_all hv hB h0
  have hhigh := hs.below hbelow h0 i j c hc
  exact abs_le.mpr ⟨hlow, hhigh⟩

theorem pivot (h : m.Midway v t) (hB : m.Within B) (h0 : 0 ≤ B)
    (hlimit : 2 * (2 * n * B) < Bound.limit) (k : Literal n) : m.Midway v (t.pivot k) where
  relaxed := by
    obtain ⟨s, hs⟩ := h.relaxed
    have hbelow : m.Below B := fun i j c hc => (abs_le.mp (hB i j c hc)).2
    refine ⟨insert k s, hs.pivot hbelow h0 hlimit fun c hc => ?_⟩
    have hle := h.point.le_of_bounds hc
    omega
  walk _ _ _ hc := pivot_induction
    (fun _ l _ _ _ ha hb => ha.trans (List.mem_toFinset.mpr (Literal.mem_all l)) hb) h.walk hc
  point := (point_pivot k).mpr h.point

end Midway

section Range

variable (hv : m.Point v) (hB : m.Within B) (h0 : 0 ≤ B) (hlimit : 2 * (2 * n * B) < Bound.limit)

include hv hB h0 hlimit

theorem within_shortestPathsTraced :
    m.shortestPathsTraced.Within (2 * (2 * n * B)) ∧
    m.shortestPathsTraced.value.Within (2 * n * B) := by
  have hstep : ∀ t k, m.Midway v t →
      (t.pivotTraced k).Within (2 * (2 * n * B)) ∧ m.Midway v (t.pivotTraced k).value := by
    intro t k ht
    have hnext := ht.pivot hB h0 hlimit k
    rw [value_pivotTraced, pivotInPlace_eq (ht.not_isNegative k)]
    exact ⟨within_pivotTraced (ht.not_isNegative k) (ht.within hv hB h0)
      (hnext.within hv hB h0), hnext⟩
  have hphase := Traced.within_foldlM hstep (Literal.all n) (midway_start hv)
  exact ⟨hphase.1, hphase.2.within hv hB h0⟩

theorem within_closeTraced? :
    m.closeTraced?.Within (2 * (2 * n * B)) ∧ ∀ k ∈ m.closeTraced?.value, k.Within (2 * n * B) := by
  have hpaths := within_shortestPathsTraced hv hB h0 hlimit
  have hprod : 0 ≤ 2 * n * B := Int.mul_nonneg (by omega) h0
  rw [closeTraced?, Traced.value_bind]
  cases hloop : m.shortestPathsTraced.value.hasNegativeLoop with
  | true =>
    refine ⟨hpaths.1.bind ?_, ?_⟩
    · rw [hloop]
      exact Traced.within_pure _
    · intro k hk
      cases hk
  | false =>
    -- The range is even, so rounding a cell down to an even number does not leave it.
    rw [Int.mul_assoc] at hpaths hprod ⊢
    have htight := within_tightenTraced hpaths.2
    have hstrong := within_strengthenTraced htight.2
    have hfinish := within_finishTraced? hstrong.2 hprod (Literal.all n)
    refine ⟨hpaths.1.bind ?_, ?_⟩
    · rw [hloop]
      exact htight.1.bind (hstrong.1.bind hfinish.1)
    · rw [if_neg Bool.false_ne_true, Traced.value_bind, Traced.value_bind]
      exact hfinish.2

end Range

/-- A size is not negative unless there is nothing to measure. -/
theorem Within.exists_nonneg (hB : m.Within B) (hdiagonal : ∀ i, m.get i i = .finite 0) :
    ∃ A, 0 ≤ A ∧ m.Within A ∧ 2 * n * A = 2 * n * B := by
  rcases Nat.eq_zero_or_pos n with rfl | hn
  · refine ⟨0, le_rfl, fun i => i.var.elim0, ?_⟩
    simp
  · have hzero := hB _ _ 0 (hdiagonal (.pos ⟨0, hn⟩))
    exact ⟨B, by simpa using hzero, hB, rfl⟩

/-- Closing a matrix that has a point carries out no operation whose result is larger than twice
what a path through all literals can weigh. So none of them overflows, no sum is dropped, and the
closed matrix has no larger cells. -/
theorem closing_in_range (m : Matrix n) (B : Int) (hdiagonal : ∀ i, m.get i i = .finite 0)
    (hB : m.Within B) (hlimit : 2 * (2 * n * B + 1) < Bound.limit) (hpoint : ∃ v, m.Point v) :
    m.closeTraced?.value = m.close? ∧
    (∀ o ∈ m.closeTraced?.operations, |o.result| ≤ 2 * (2 * n * B + 1) ∧
      FitsIn int128Limit o.result ∧
      Bound.ofInt o.result = .finite o.result) ∧
    ∀ k ∈ m.close?, k.Within (2 * (2 * n * B + 1)) := by
  obtain ⟨v, hv⟩ := hpoint
  obtain ⟨A, h0, hA, hsize⟩ := hB.exists_nonneg hdiagonal
  have hprod : 0 ≤ 2 * n * A := Int.mul_nonneg (by omega) h0
  have hwide : Bound.limit < int128Limit := by decide
  have hrange := within_closeTraced? hv hA h0 (by omega)
  rw [value_closeTraced?] at hrange
  rw [← hsize] at hlimit ⊢
  refine ⟨m.value_closeTraced?, fun o ho => ?_, fun k hk => (hrange.2 k hk).mono (by omega)⟩
  have hle := hrange.1 o ho
  have hresult := le_abs_self o.result
  exact ⟨by omega, fitsIn_of_abs_lt (by omega), if_pos (by omega)⟩

/-- `y ≥ 2 ^ 120` and `x ≥ y + 2 ^ 121`. -/
def farOut : Matrix 2 :=
  ((top 2).addSum (.neg Octagon.xVar) (.pos Octagon.yVar)
    (-0x2000000000000000000000000000000)).addUpper
    (.neg Octagon.yVar) (-0x1000000000000000000000000000000)

theorem point_farOut : farOut.Point fun x =>
    if x = Octagon.xVar then 0x3000000000000000000000000000000
    else 0x1000000000000000000000000000000 :=
  ((point_top _).addSum (by decide)).addUpper (by decide)

/-- What `x` is at least follows along a path over three cells, so a sum gets three times as large
as any of them. -/
theorem closing_in_range_farOut :
    (∀ i, farOut.get i i = .finite 0) ∧ farOut.Within 0x2000000000000000000000000000000 ∧
    (∃ v, farOut.Point v) ∧ farOut.closeTraced?.value = farOut.close? ∧
    (∀ o ∈ farOut.closeTraced?.operations,
      |o.result| ≤ 2 * (2 * 2 * 0x2000000000000000000000000000000 + 1) ∧
      FitsIn int128Limit o.result ∧ Bound.ofInt o.result = .finite o.result) ∧
    ∃ o ∈ farOut.closeTraced?.operations, o.result = -0x6000000000000000000000000000000 := by
  have hregular : farOut.Regular := by decide +kernel
  have hB : farOut.Within 0x2000000000000000000000000000000 := by decide +kernel
  have hsum : ∃ o ∈ farOut.closeTraced?.operations, o.result =
      -0x6000000000000000000000000000000 := by
    decide +kernel
  obtain ⟨hvalue, hrange, -⟩ :=
    closing_in_range farOut 0x2000000000000000000000000000000 hregular.diagonal hB
    (by decide) ⟨_, point_farOut⟩
  exact ⟨hregular.diagonal, hB, ⟨_, point_farOut⟩, hvalue, hrange, hsum⟩

end Matrix

end Lifespan
