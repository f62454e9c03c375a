import Lifespan.Octagon.Basic
import Lifespan.Proofs.Octagon.Cells
import Lifespan.Proofs.Settling
import Mathlib.Data.Fintype.Prod

namespace Lifespan

open Dataflow

variable {n : Nat}

namespace Matrix

/-- The cells that hold a bound. -/
def boundedCells (m : Matrix n) : Finset (Fin (2 * n) × Fin (2 * n)) :=
  Finset.univ.filter fun c => m.get (.ofIndex c.1) (.ofIndex c.2) ≠ .absent

theorem mem_boundedCells {m : Matrix n} {i j : Literal n} :
    (i.index, j.index) ∈ m.boundedCells ↔ m.get i j ≠ .absent := by
  simp [boundedCells]

theorem card_boundedCells_le (m : Matrix n) : m.boundedCells.card ≤ 2 * n * (2 * n) := by
  have h := Finset.card_le_univ m.boundedCells
  simpa using h

theorem widen_cases (a b : Matrix n) (i j : Literal n) :
    (a.widen b).get i j = a.get i j ∨ (a.widen b).get i j = .absent := by
  rw [get_widen]
  split
  · exact .inl rfl
  · exact .inr rfl

theorem boundedCells_widen_subset (a b : Matrix n) : (a.widen b).boundedCells ⊆ a.boundedCells := by
  rintro ⟨k, l⟩ h
  rw [← Literal.index_ofIndex k, ← Literal.index_ofIndex l, mem_boundedCells] at h ⊢
  rcases widen_cases a b (.ofIndex k) (.ofIndex l) with heq | heq
  · rwa [← heq]
  · exact absurd heq h

/-- A widening that changes a matrix drops one of its bounds. -/
theorem widen_eq_or_card_lt (a b : Matrix n) :
    a.widen b = a ∨ (a.widen b).boundedCells.card < a.boundedCells.card := by
  by_cases h : ∀ i j, (a.widen b).get i j = a.get i j
  · exact .inl (ext_get h)
  · right
    push Not at h
    obtain ⟨i, j, hij⟩ := h
    have hlost : (a.widen b).get i j = .absent := (widen_cases a b i j).resolve_left hij
    apply Finset.card_lt_card
    refine ⟨boundedCells_widen_subset a b, fun hsub => ?_⟩
    have hmem : (i.index, j.index) ∈ a.boundedCells := by
      rw [mem_boundedCells, ← hlost]
      exact Ne.symm hij
    exact mem_boundedCells.mp (hsub hmem) hlost

end Matrix

namespace Octagon

/-- The bounds that widening can still take away. A widened octagon is no longer marked as closed,
which counts as a step too. -/
def rank : Octagon n → Nat
  | empty => 2 * (2 * n * (2 * n)) + 2
  | tight m => 2 * m.boundedCells.card + 1
  | loose m => 2 * m.boundedCells.card

theorem rank_lt_of_matrix? {s : Octagon n} {m : Matrix n} (h : s.matrix? = some m) :
    s.rank < 2 * (2 * n * (2 * n)) + 2 := by
  have hle := m.card_boundedCells_le
  cases s <;> simp only [matrix?, Option.some.injEq, reduceCtorEq] at h <;> subst h <;>
    simp only [rank] <;> omega

/-- A widening leaves the older octagon as it is or lowers its rank. -/
theorem widen_eq_or_rank_lt (a b : Octagon n) : a.widen b = a ∨ (a.widen b).rank < a.rank := by
  cases a with
  | empty =>
    cases b with
    | empty => exact .inl rfl
    | loose m => exact .inr (rank_lt_of_matrix? (m := m) rfl)
    | tight m => exact .inr (rank_lt_of_matrix? (m := m) rfl)
  | loose m =>
    cases hb : b.closure? with
    | none => exact .inl (by simp [widen, matrix?, hb])
    | some k =>
      have hw : (loose m).widen b = loose (m.widen k) := by simp [widen, matrix?, hb]
      rw [hw]
      rcases m.widen_eq_or_card_lt k with heq | hlt
      · exact .inl (by rw [heq])
      · right
        simp only [rank]
        omega
  | tight m =>
    cases hb : b.closure? with
    | none => exact .inl (by simp [widen, matrix?, hb])
    | some k =>
      have hw : (tight m).widen b = loose (m.widen k) := by simp [widen, matrix?, hb]
      -- even without a lost bound the rank is lower, since the result is not marked as closed
      have hle := Finset.card_le_card (m.boundedCells_widen_subset k)
      right
      rw [hw]
      simp only [rank]
      omega

theorem ranked (n : Nat) : Ranked (rank (n := n)) (2 * (2 * n * (2 * n)) + 2) where
  le_top s := by
    cases h : s.matrix? with
    | none => cases s <;> simp_all [matrix?, rank]
    | some m => exact (rank_lt_of_matrix? h).le
  widen := widen_eq_or_rank_lt

end Octagon

end Lifespan
