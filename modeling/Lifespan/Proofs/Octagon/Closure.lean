import Lifespan.Proofs.Octagon.Points
import Lifespan.Octagon.Basic

namespace Lifespan

variable {n : Nat} {v : Fin n → Int}

namespace Matrix

variable {m : Matrix n}

theorem point_pivot (k : Literal n) : (m.pivot k).Point v ↔ m.Point v := by
  constructor
  · intro h i j
    have hcell := h i j
    rw [get_pivot] at hcell
    split at hcell
    · exact hcell
    · exact (Bound.allows_min.mp hcell).1
  · intro h i j
    rw [get_pivot]
    split
    case h_1 => exact h i j
    case h_2 c hc =>
      -- the two cells on the way through `k` add up
      have hik := h i k
      rw [hc] at hik
      have hpath := hik.add (h k j)
      have hsum : k.value v - i.value v + (j.value v - k.value v) = j.value v - i.value v := by
        omega
      rw [hsum] at hpath
      exact Bound.allows_min.mpr ⟨h i j, hpath⟩

theorem point_shortestPaths : m.shortestPaths.Point v ↔ m.Point v :=
  List.foldlRecOn (motive := fun k : Matrix n => k.Point v ↔ m.Point v) _ _ Iff.rfl
    fun _ hk l _ => (point_pivot l).trans hk

theorem value_sub_of_eq_bar {i j : Literal n} (h : j = i.bar) (v : Fin n → Int) :
    j.value v - i.value v = 2 * j.value v := by
  rw [h, Literal.value_bar]
  omega

theorem point_tighten : m.tighten.Point v ↔ m.Point v := by
  have hcell : ∀ i j, (m.tighten.get i j).Allows (j.value v - i.value v) ↔
      (m.get i j).Allows (j.value v - i.value v) := by
    intro i j
    rw [tighten, get_ofFn]
    split
    case isTrue hj =>
      rw [value_sub_of_eq_bar hj]
      exact Bound.allows_even
    case isFalse => exact Iff.rfl
  exact forall_congr' fun i => forall_congr' fun j => hcell i j

theorem point_strengthen : m.strengthen.Point v ↔ m.Point v := by
  constructor
  · intro h i j
    have hcell := h i j
    rw [strengthen, get_ofFn] at hcell
    exact (Bound.allows_min.mp hcell).1
  · intro h i j
    rw [strengthen, get_ofFn]
    refine Bound.allows_min.mpr ⟨h i j, ?_⟩
    -- both cells bound twice a literal
    have hi := h i i.bar
    have hj := h j.bar j
    rw [value_sub_of_eq_bar rfl, Literal.value_bar] at hi
    rw [value_sub_of_eq_bar (j.bar_bar).symm] at hj
    have hsum := hi.halfSum hj
    have hdiff : -i.value v + j.value v = j.value v - i.value v := by
      omega
    rwa [hdiff] at hsum

theorem not_point_of_hasNegativeLoop (h : m.hasNegativeLoop = true) : ¬ m.Point v := by
  obtain ⟨i, -, hi⟩ := List.any_eq_true.mp h
  intro hp
  have hcell := hp i i
  rw [Int.sub_self] at hcell
  exact Bound.not_allows_of_isNegative hi (Int.le_refl 0) hcell

theorem not_point_of_hasEmptyRange (h : m.hasEmptyRange = true) : ¬ m.Point v := by
  obtain ⟨i, -, hi⟩ := List.any_eq_true.mp h
  intro hp
  have hcell := (hp i i.bar).add (hp i.bar i)
  have hzero : i.bar.value v - i.value v + (i.value v - i.bar.value v) = 0 := by
    omega
  rw [hzero] at hcell
  exact Bound.not_allows_of_isNegative hi (Int.le_refl 0) hcell

theorem point_zeroDiagonal (h : m.hasNegativeLoop = false) :
    m.zeroDiagonal.Point v ↔ m.Point v := by
  have hcell : ∀ i j, (m.zeroDiagonal.get i j).Allows (j.value v - i.value v) ↔
      (m.get i j).Allows (j.value v - i.value v) := by
    intro i j
    rw [zeroDiagonal, get_ofFn]
    split
    case isTrue hij =>
      subst hij
      have hi : (m.get i i).isNegative = false := by
        have hall := List.any_eq_false.mp h i (Literal.mem_all i)
        simpa using hall
      rw [Int.sub_self]
      exact iff_of_true (Int.le_refl 0) (Bound.allows_zero_of_not_isNegative hi)
    case isFalse => exact Iff.rfl
  exact forall_congr' fun i => forall_congr' fun j => hcell i j

theorem point_tight : m.shortestPaths.tighten.strengthen.Point v ↔ m.Point v :=
  point_strengthen.trans (point_tighten.trans point_shortestPaths)

theorem not_point_of_close? (h : m.close? = none) : ¬ m.Point v := by
  unfold close? at h
  simp only at h
  split at h
  case isTrue hneg =>
    rw [← point_shortestPaths]
    exact not_point_of_hasNegativeLoop hneg
  case isFalse =>
    split at h
    case isTrue hbad =>
      rw [← point_tight]
      rcases Bool.or_eq_true_iff.mp hbad with hempty | hneg
      · exact not_point_of_hasEmptyRange hempty
      · exact not_point_of_hasNegativeLoop hneg
    case isFalse => cases h

theorem point_close? {k : Matrix n} (h : m.close? = some k) : k.Point v ↔ m.Point v := by
  unfold close? at h
  simp only at h
  split at h
  · cases h
  · split at h
    case isTrue => cases h
    case isFalse hgood =>
      obtain rfl := Option.some.inj h
      have hloop : m.shortestPaths.tighten.strengthen.hasNegativeLoop = false := by
        by_contra hc
        exact hgood (Bool.or_eq_true_iff.mpr (.inr (by simpa using hc)))
      exact (point_zeroDiagonal hloop).trans point_tight

end Matrix

namespace Octagon

/-- The points of its matrix; the empty octagon has none. -/
def Point (s : Octagon n) (v : Fin n → Int) : Prop := ∃ m, s.matrix? = some m ∧ m.Point v

variable {s : Octagon n}

theorem not_point_empty : ¬ (empty : Octagon n).Point v := by
  rintro ⟨m, hm, -⟩
  cases hm

theorem point_loose {m : Matrix n} : (loose m).Point v ↔ m.Point v := by
  simp [Point, matrix?]

theorem point_tight {m : Matrix n} : (tight m).Point v ↔ m.Point v := by
  simp [Point, matrix?]

/-- The points of an octagon are those of its closure. -/
theorem point_iff_closure? : s.Point v ↔ ∃ m, s.closure? = some m ∧ m.Point v := by
  cases s with
  | empty => exact Iff.rfl
  | tight m => exact Iff.rfl
  | loose m =>
    rw [point_loose]
    cases h : m.close? with
    | none =>
      simp only [closure?, h, reduceCtorEq, false_and, exists_false, iff_false]
      exact Matrix.not_point_of_close? h
    | some k =>
      simp only [closure?, h, Option.some.injEq, exists_eq_left']
      exact (Matrix.point_close? h).symm

theorem not_point_of_closure? (h : s.closure? = none) : ¬ s.Point v := by
  rw [point_iff_closure?, h]
  rintro ⟨m, hm, -⟩
  cases hm

theorem point_of_closure? {m : Matrix n} (h : s.closure? = some m) : s.Point v ↔ m.Point v := by
  rw [point_iff_closure?, h]
  simp

theorem point_top (v : Fin n → Int) : (top n).Point v := point_tight.mpr (Matrix.point_top v)

theorem closure?_ofMatrix (m : Matrix n) : (ofMatrix m).closure? = m.close? := by
  unfold ofMatrix
  cases m.close? <;> rfl

theorem point_ofMatrix {m : Matrix n} : (ofMatrix m).Point v ↔ m.Point v := by
  unfold ofMatrix
  cases hk : m.close? with
  | some k => exact point_tight.trans (Matrix.point_close? hk)
  | none => exact iff_of_false not_point_empty (Matrix.not_point_of_close? hk)

theorem same_refl (s : Octagon n) : s.same s = true := by
  simp [same]

/-- Octagons that count as the same have the same points. -/
theorem point_of_same {t : Octagon n} (h : s.same t = true) : s.Point v ↔ t.Point v := by
  have hc : s.closure? = t.closure? := by simpa [same] using h
  rw [point_iff_closure?, point_iff_closure?, hc]

theorem Point.join {t : Octagon n} (h : s.Point v ∨ t.Point v) : (s.join t).Point v := by
  rw [point_iff_closure?, point_iff_closure? (s := t)] at h
  unfold Octagon.join
  cases hs : s.closure? with
  | none =>
    cases ht : t.closure? with
    | none => simp [hs, ht] at h
    | some k => exact point_loose.mpr (by simpa [hs, ht] using h)
  | some m =>
    cases ht : t.closure? with
    | none => exact point_loose.mpr (by simpa [hs, ht] using h)
    | some k =>
      apply point_loose.mpr
      apply Matrix.Point.join
      simpa [hs, ht] using h

theorem Point.widen {t : Octagon n} (h : s.Point v ∨ t.Point v) : (s.widen t).Point v := by
  unfold Octagon.widen
  cases hs : s.matrix? with
  | none =>
    have hno : ¬ s.Point v := by
      rintro ⟨m, hm, -⟩
      rw [hs] at hm
      cases hm
    exact h.resolve_left hno
  | some m =>
    cases ht : t.closure? with
    | none => exact h.resolve_right (not_point_of_closure? ht)
    | some k =>
      apply point_loose.mpr
      apply Matrix.Point.widen
      rw [Point, hs, point_of_closure? ht] at h
      simpa using h

end Octagon

end Lifespan
