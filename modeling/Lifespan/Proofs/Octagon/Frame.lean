import Lifespan.Proofs.Octagon.Assignment
import Mathlib.Data.Set.Basic

namespace Lifespan

variable {n : Nat} {v : Fin n → Int}

namespace Matrix

variable {m : Matrix n} {x : Fin n} {b c : Int}

/-- A translation of `x` keeps the bounds that do not mention `x`. It may drop others, if they reach
the limit. -/
theorem Within.shift_refines_forget (hm : m.Within b) (hb : b < Bound.limit) (x : Fin n) (c : Int) :
    (m.shift x c).Refines (m.forget x) := by
  intro i j d hd
  rw [Bounds, forget, get_ofFn] at hd
  split at hd
  case isTrue => exact absurd hd Bound.not_absent_le
  case isFalse hx =>
    obtain ⟨e, he, hed⟩ := Bound.le_finite.mp hd
    have hsame : growth x c i = growth x c j := by
      by_cases hij : i = j
      · rw [hij]
      · obtain ⟨hi, hj⟩ := not_or.mp fun h => hx ⟨hij, h⟩
        rw [growth, growth, if_neg hi, if_neg hj]
    have hlimit : e < Bound.limit := (le_abs_self e).trans_lt ((hm i j e he).trans_lt hb)
    have hmoved : (m.shift x c).Bounds i j e := ((bounds_of_get he).mono (by omega)).shift hlimit
    exact hmoved.mono hed

end Matrix

namespace Octagon

variable {s : Octagon n} {m : Matrix n} {x : Fin n} {t : Term (Fin n)} {b B : Int}

/-- After an assignment to `x`, all that was known without mentioning `x` still holds. -/
theorem Point.forget_of_assign (h : (s.assign x t).Point v) (hm : s.closure? = some m)
    (hb : m.Within b) (hlimit : b < Bound.limit) : (m.forget x).Point v := by
  rw [Octagon.assign, hm] at h
  dsimp only at h
  cases hf : t.linear? with
  | none =>
    rw [hf] at h
    exact (Matrix.refines_addInterval _ _ _).point (point_ofMatrix.mp h)
  | some f =>
    rw [hf] at h
    dsimp only at h
    split at h
    · exact (hb.shift_refines_forget hlimit x f.constant).point (point_tight.mp h)
    · exact (m.assignLinear_refines_forget x f).point (point_ofMatrix.mp h)

/-- The values that the variables other than `x` take together. -/
def others (s : Octagon n) (x : Fin n) : Set ({y // y ≠ x} → Int) :=
  {u | ∃ v, s.Point v ∧ ∀ y, u y = v y}

theorem others_subset_assign (s : Octagon n) (x : Fin n) (t : Term (Fin n)) :
    s.others x ⊆ (s.assign x t).others x := by
  rintro u ⟨v, hv, hu⟩
  refine ⟨_, hv.assign x t, fun y => ?_⟩
  rw [Function.update_of_ne y.property]
  exact hu y

theorem Built.nonneg_of_within {moved : Matrix n → Prop} (hs : Built moved s) (hB : s.Within B)
    (hm : s.closure? = some m) (x : Fin n) : 0 ≤ B := by
  obtain ⟨k, hk⟩ : ∃ k, s.matrix? = some k := by
    cases s with
    | empty => cases hm
    | loose k => exact ⟨k, rfl⟩
    | tight k => exact ⟨k, rfl⟩
  have hdiagonal := hB k hk (.pos x) (.pos x) 0 ((hs.regular hk).diagonal _)
  rwa [abs_zero] at hdiagonal

theorem Built.others_assign_subset (hs : Built Matrix.Small s) (hB : s.Within B)
    (hlimit : 8 * (2 * n + 1) * (B + 1) < Bound.limit) : (s.assign x t).others x ⊆ s.others x := by
  rintro u ⟨v, hv, hu⟩
  cases hm : s.closure? with
  | none =>
    rw [Octagon.assign, hm] at hv
    exact (not_point_empty hv).elim
  | some m =>
    have h0 := hs.nonneg_of_within hB hm x
    obtain ⟨b, hBb, hb, hclosed⟩ := hs.tight_within hB h0 hlimit
    obtain ⟨htight, hwithin⟩ := hclosed m hm
    -- the value that `x` had is not known, but there was one
    obtain ⟨d, hd⟩ := htight.point_forget_iff.mp (hv.forget_of_assign hm hwithin (by omega))
    refine ⟨Function.update v x d, (point_of_closure? hm).mpr hd, fun y => ?_⟩
    rw [Function.update_of_ne y.property]
    exact hu y

/-- The term that overflows and, close below the end of the range, a multiple of `x`. -/
def overflowingBack : Term (Fin 2) :=
  .add overflowing (.mul (.var xVar) (.mul
    (.mul (.const (int64Limit - 1)) (.const (int64Limit - 1))) (.const 2)))

end Octagon

end Lifespan
