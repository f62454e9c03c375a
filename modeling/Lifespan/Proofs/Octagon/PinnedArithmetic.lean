import Lifespan.Proofs.Octagon.Arithmetic
import Lifespan.Proofs.Octagon.Pinned

namespace Lifespan

variable {n : Nat}

namespace Matrix

variable {m q : Matrix n} {p : Fin n → Int} {S : Finset (Fin n)} {i j k : Literal n} {b : Bound}
    {c : Int}

namespace Generates

theorem set_min (h : m.Generates q) (hb : b.Forgets (q.get i j)) :
    (m.set i j (min (m.get i j) b)).Generates q := by
  apply h.of_min
  intro k l
  rw [get_set]
  split
  case isTrue hkl =>
    obtain ⟨rfl, rfl⟩ := hkl
    exact ⟨b, hb, rfl⟩
  case isFalse => exact ⟨.absent, .inl rfl, (Bound.min_absent _).symm⟩

theorem set_self (h : m.Generates q) (hb : m.get i j = b) : (m.set i j b).Generates q := by
  have hsame : m.set i j b = m := by
    apply ext_get
    intro k l
    rw [get_set]
    split
    case isTrue hkl => rw [← hkl.1, ← hkl.2, hb]
    case isFalse => rfl
  rwa [hsame]

/-- The bounds of a pinned matrix are differences of 64-bit integers. -/
theorem within (h : m.Generates (pinned p S)) (hp : Moderate p S) :
    m.Within (2 * int64Limit) := by
  intro i j c hc
  obtain ⟨hij, rfl⟩ := h.pinned_of_get hc
  rcases hij with rfl | ⟨hi, hj⟩
  · simp [int64Limit]
  · have hlow := hp.value_bounds hi
    have hhigh := hp.value_bounds hj
    exact abs_le.mpr ⟨by omega, by omega⟩

theorem forgets_halfSum (h : m.Generates (pinned p S)) (i j : Literal n) :
    ((m.get i i.bar).halfSum (m.get j.bar j)).Forgets ((pinned p S).get i j) := by
  rw [h.unary_bar i, h.unary j]
  have hcell := get_pinned_bar p S i.bar
  rw [Literal.bar_bar, Literal.var_bar] at hcell
  rw [hcell, get_pinned_bar]
  by_cases hi : i.var ∈ S
  · by_cases hj : j.var ∈ S
    · have hhalf : (2 * i.bar.value p + 2 * j.value p) / 2 = j.value p - i.value p := by
        rw [Literal.value_bar]
        omega
      rw [if_pos hi, if_pos hj, get_pinned_of_mem hi hj, Bound.halfSum, hhalf]
      exact Bound.forgets_ofInt _
    · rw [if_pos hi, if_neg hj]
      exact .inl rfl
  · rw [if_neg hi]
    exact .inl rfl

section Closing

variable (hp : Moderate p S)

include hp

theorem within_relaxRowTraced (h : m.Generates (pinned p S)) (k i : Literal n) :
    (m.relaxRowTraced k i).Within (2 * (2 * int64Limit)) ∧
    (m.relaxRowTraced k i).value.Generates (pinned p S) := by
  rw [relaxRowTraced.eq_def]
  cases hc : m.get i k with
  | absent => exact ⟨Traced.within_pure _, h⟩
  | finite c =>
    have hsized := h.within hp i k
    rw [hc] at hsized
    have hexact := get_pinned_eq_finite.mpr (h.pinned_of_get hc)
    refine Traced.within_foldlM (P := (Generates · (pinned p S))) (fun t j ht => ⟨?_, ?_⟩) _ h
    · have hsum := Bound.within_addTraced hsized ((ht.within hp).sized k j)
      exact hsum.bind (Traced.within_pure _)
    · rw [Traced.value_bind, Traced.value_pure, Bound.value_addTraced]
      exact ht.set_min (ht.forgets_add hexact j)

theorem within_tightenTraced (h : m.Generates (pinned p S)) :
    m.tightenTraced.Within (2 * (2 * int64Limit)) ∧
    m.tightenTraced.value.Generates (pinned p S) := by
  refine Traced.within_foldlM (P := (Generates · (pinned p S))) (fun t i ht => ⟨?_, ?_⟩) _ h
  · have heven := Bound.within_evenTraced ((ht.within hp).sized i i.bar)
    exact heven.1.bind (Traced.within_pure _)
  · rw [Traced.value_bind, Traced.value_pure, Bound.value_evenTraced]
    apply ht.set_self
    rw [ht.unary_bar, even_pinned]

theorem within_strengthenTraced (h : m.Generates (pinned p S)) :
    m.strengthenTraced.Within (2 * (2 * int64Limit)) ∧
    m.strengthenTraced.value.Generates (pinned p S) := by
  refine Traced.within_foldlM (P := (Generates · (pinned p S))) (fun t i ht => ?_) _ h
  refine Traced.within_foldlM (P := (Generates · (pinned p S))) (fun t' j ht' => ?_) _ ht
  have hrow : t.get i i.bar = t'.get i i.bar := by rw [ht.unary_bar, ht'.unary_bar]
  have hwithin := ht'.within hp
  have hhalf := Bound.within_halfSumTraced (hwithin.sized i i.bar) (hwithin.sized j.bar j)
  rw [Traced.value_bind, Traced.value_pure, Bound.value_halfSumTraced, hrow]
  exact ⟨hhalf.1.bind (Traced.within_pure _), ht'.set_min (ht'.forgets_halfSum i j)⟩

/-- Closing what generates a pinned matrix of 64-bit integers stays far from overflowing. -/
theorem inRange_closeTraced? (h : m.Generates (pinned p S)) : m.closeTraced?.InRange := by
  have hpaths : m.shortestPathsTraced.Within (2 * (2 * int64Limit)) ∧
      m.shortestPathsTraced.value.Generates (pinned p S) :=
    Traced.within_foldlM (P := (Generates · (pinned p S)))
      (fun t k ht => Traced.within_foldlM (P := (Generates · (pinned p S)))
        (fun t i ht => ht.within_relaxRowTraced hp k i) _ ht) _ h
  have htight := hpaths.2.within_tightenTraced hp
  have hstrong := htight.2.within_strengthenTraced hp
  have hfinish := within_finishTraced? (hstrong.2.within hp) (by decide) (Literal.all n)
  refine Traced.Within.inRange (L := 2 * (2 * int64Limit)) (hpaths.1.bind ?_) (by decide)
  split
  · exact Traced.within_pure _
  · exact htight.1.bind (hstrong.1.bind hfinish.1)

end Closing

end Generates

end Matrix

namespace Octagon

variable {p : Fin n → Int} {S : Finset (Fin n)} {x : Fin n} {c : Int}

theorem inRange_ofMatrixTraced {m : Matrix n} (h : m.closeTraced?.InRange) :
    (ofMatrixTraced m).InRange := by
  refine Traced.inRange_bind.mpr ⟨h, ?_⟩
  cases m.closeTraced?.value <;> exact Traced.inRange_pure _

/-- Assigning a 64-bit integer to a variable of a pinned octagon pins it too, without an
overflow. -/
theorem assignTraced_const (hp : Matrix.Moderate (Function.update p x c) (insert x S)) :
    ((tight (.pinned p S)).assignTraced x (.const c)).InRange ∧
    ((tight (.pinned p S)).assignTraced x (.const c)).value =
      tight (.pinned (Function.update p x c) (insert x S)) := by
  have hc : FitsIn int64Limit c := by
    have hx := hp x (Finset.mem_insert_self x S)
    rwa [Function.update_self] at hx
  have hgenerates := Matrix.generates_addInterval hp
  have hsummands : (Linear.ofConst c : Linear n).summands = [] := Linear.summands_ofConst c
  have hshift : isShift x (.ofConst c) = false := by simp [isShift, hsummands]
  have hrange : (Matrix.pinned p S).rangeTraced (.ofConst c) = pure (.point c) := by
    rw [Matrix.rangeTraced, hsummands]
    change (pure ((Interval.point 0).add (.point c)) : Traced Interval) = _
    rw [Interval.add_point (by rw [Int.zero_add]; exact hc.wide), Int.zero_add]
  have hassign : (tight (.pinned p S)).assignTraced x (.const c) =
      ((Matrix.pinned p S).forget x).addIntervalTraced x (.point c) >>= ofMatrixTraced := by
    change (if isShift x (.ofConst c) then _ else _) = _
    rw [hshift, if_neg Bool.false_ne_true, Matrix.assignLinearTraced, hrange, hsummands]
    have hpure : ((Matrix.pinned p S).forget x).addIntervalTraced x (.point c) >>= pure =
        ((Matrix.pinned p S).forget x).addIntervalTraced x (.point c) := bind_pure _
    exact congrArg (· >>= ofMatrixTraced) hpure
  constructor
  · rw [hassign]
    refine Traced.inRange_bind.mpr ⟨?_, ?_⟩
    · have hwide : int64Limit < int128Limit := by decide
      obtain ⟨hlow, hhigh⟩ := hc
      refine Traced.inRange_bind.mpr ⟨Traced.inRange_perform.mpr ?_, Traced.inRange_pure _⟩
      change FitsIn int128Limit (-c)
      constructor <;> omega
    · rw [Matrix.value_addIntervalTraced]
      exact inRange_ofMatrixTraced (hgenerates.inRange_closeTraced? hp)
  · rw [hassign, Traced.value_bind, Matrix.value_addIntervalTraced, value_ofMatrixTraced, ofMatrix,
      hgenerates.close? hp]

end Octagon

end Lifespan
