import Lifespan.Proofs.Octagon.Assignment
import Lifespan.Proofs.Octagon.Order
import Lifespan.Proofs.Octagon.Widening
import Lifespan.Proofs.Semilattice

namespace Lifespan

theorem Bound.le_absent (a : Bound) : a ≤ .absent := by
  cases a <;> rfl

variable {n : Nat}

namespace Matrix

variable {m k : Matrix n}

theorem Refines.widen_eq (h : k.Refines m) : m.widen k = m := by
  apply ext_get
  intro i j
  rw [get_widen, if_pos]
  cases hc : m.get i j with
  | absent => exact Bound.le_absent _
  | finite c => exact h i j c (bounds_of_get hc)

theorem widen_widen (m k : Matrix n) : (m.widen k).widen k = m.widen k := by
  apply ext_get
  intro i j
  rw [get_widen, if_pos]
  rw [get_widen]
  split
  · assumption
  · exact Bound.le_absent _

end Matrix

namespace Octagon

variable {a b : Octagon n}

theorem matrix?_eq_none : a.matrix? = none ↔ a = empty := by
  cases a <;> simp [matrix?]

/-- A widening gives the newer octagon, the older one, or some bounds of the older one. -/
theorem widen_cases (a b : Octagon n) :
    (a = empty ∧ a.widen b = b) ∨
    ∃ m, a.matrix? = some m ∧
      (a.widen b = a ∧ b.closure? = none ∨ ∃ k, a.widen b = loose (m.widen k) ∧
        b.closure? = some k) := by
  cases hm : a.matrix? with
  | none => exact .inl ⟨matrix?_eq_none.mp hm, by rw [widen, hm]⟩
  | some m =>
    refine .inr ⟨m, rfl, ?_⟩
    cases hk : b.closure? with
    | none => exact .inl ⟨by rw [widen, hm, hk], rfl⟩
    | some k => exact .inr ⟨k, by rw [widen, hm, hk], rfl⟩

/-- Widening with itself only takes the mark away that an octagon is closed. -/
theorem same_widen_self : (b.widen b).same b = true ↔ ∀ m, b = tight m → m.close? = some m := by
  cases b with
  | empty => simp [widen, matrix?, same_refl]
  | loose m =>
    have hkeep : (loose m).widen (loose m) = loose m := by
      rcases widen_cases (loose m) (loose m) with ⟨-, h⟩ | ⟨_, hm, ⟨h, -⟩ | ⟨k, h, hk⟩⟩
      · exact h
      · exact h
      · obtain rfl := Option.some.inj hm
        rw [h, (Matrix.refines_of_close? hk).widen_eq]
    simp [hkeep, same_refl]
  | tight m =>
    have hopen : (tight m).widen (tight m) = loose m := by
      change loose (m.widen m) = loose m
      rw [(Matrix.Refines.refl m).widen_eq]
    rw [hopen, same, decide_eq_true_iff]
    change m.close? = some m ↔ _
    simp

theorem same_widen_widen :
    ((a.widen b).widen b).same (a.widen b) = true ↔
    (a = empty → ∀ m, b = tight m → m.close? = some m) := by
  rcases widen_cases a b with ⟨hempty, h⟩ | ⟨m, hm, hcases⟩
  · rw [h, same_widen_self]
    simp [hempty]
  · have hsome : a ≠ empty := by
      rintro rfl
      cases hm
    suffices hkeep : (a.widen b).widen b = a.widen b by simp [hkeep, same_refl, hsome]
    rcases hcases with ⟨h, -⟩ | ⟨k, h, hk⟩
    · rw [h, h]
    · have hagain : (loose (m.widen k)).widen b = loose ((m.widen k).widen k) := by
        rw [widen, hk]
        rfl
      rw [h, hagain, Matrix.widen_widen]

/-- How often widenings can still change the matrix. -/
def allowance (s : Octagon n) : Nat := s.matrix?.elim (2 * n * (2 * n) + 1) (·.boundedCells.card)

theorem allowance_of_matrix? {m : Matrix n} (h : a.matrix? = some m) :
    a.allowance = m.boundedCells.card := by
  rw [allowance, h]
  rfl

theorem allowance_le (s : Octagon n) : s.allowance ≤ 2 * n * (2 * n) + 1 := by
  unfold allowance
  cases s.matrix? with
  | none => exact le_rfl
  | some m => exact m.card_boundedCells_le.trans (Nat.le_succ _)

theorem allowance_widen_lt (h : (a.widen b).matrix? ≠ a.matrix?) :
    (a.widen b).allowance < a.allowance := by
  rcases widen_cases a b with ⟨rfl, hw⟩ | ⟨m, hm, ⟨hw, -⟩ | ⟨k, hw, -⟩⟩
  · obtain ⟨m, hm⟩ := Option.ne_none_iff_exists'.mp h
    rw [allowance_of_matrix? hm]
    exact Nat.lt_succ_of_le m.card_boundedCells_le
  · rw [hw] at h
    contradiction
  · have hloose : (a.widen b).matrix? = some (m.widen k) := by
      rw [hw]
      rfl
    rw [allowance_of_matrix? hloose, allowance_of_matrix? hm]
    apply (m.widen_eq_or_card_lt k).resolve_left
    intro hsame
    rw [hloose, hm, hsame] at h
    contradiction

theorem allowance_widen_le (a b : Octagon n) : (a.widen b).allowance ≤ a.allowance := by
  by_cases h : (a.widen b).matrix? = a.matrix?
  · rw [allowance, h]
    exact le_rfl
  · exact (allowance_widen_lt h).le

/-- The octagon `a` widened by the first `k` of the octagons `b`. -/
def widened (a : Octagon n) (b : Nat → Octagon n) : Nat → Octagon n
  | 0 => a
  | k + 1 => (widened a b k).widen (b k)

/-- Along a chain of widenings with any octagons every step contains both sides, and the stored
matrix changes at most once for each of its cells and once more. Widening again with the same
octagon gives the same, except for one that is marked as closed though it is not, and that replaced
the empty octagon. -/
theorem widened_stabilises (a : Octagon n) (b : Nat → Octagon n) :
    (∀ k v, (widened a b k).Point v ∨ (b k).Point v → (widened a b (k + 1)).Point v) ∧
    (∀ k, ((widened a b (k + 1)).widen (b k)).same (widened a b (k + 1)) = true ↔
      (widened a b k = empty → ∀ m, b k = tight m → m.close? = some m)) ∧
    {k | (widened a b (k + 1)).matrix? ≠ (widened a b k).matrix?}.encard ≤ 2 * n * (2 * n) + 1 := by
  refine ⟨fun k v h => Point.widen h, fun k => same_widen_widen, ?_⟩
  have hanti : Antitone fun k => (widened a b k).allowance :=
    antitone_nat_of_succ_le fun k => allowance_widen_le _ _
  refine (encard_le_of_antitone hanti fun k hk => allowance_widen_lt hk).trans ?_
  exact_mod_cast a.allowance_le

/-- A bound on `x` is missing from `returned`, which is marked as closed. Widened it is no longer
marked, and closing it finds the bound. -/
theorem widened_returned_not_stable :
    ((widened empty (fun _ => returned) 1).widen returned).same
    (widened empty (fun _ => returned) 1) = false := by
  have hbefore : returned.satisfies ⟨.sub (.const 0) (.var xVar), .ge⟩ = false := by decide +kernel
  have hafter : (returned.widen returned).satisfies ⟨.sub (.const 0) (.var xVar), .ge⟩ = true := by
    decide +kernel
  change (returned.widen returned).same returned = false
  rw [← Bool.not_eq_true]
  intro hsame
  rw [satisfies_eq_of_same hsame, hbefore] at hafter
  cases hafter

end Octagon

end Lifespan
