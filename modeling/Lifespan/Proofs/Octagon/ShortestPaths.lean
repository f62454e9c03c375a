import Lifespan.Proofs.Octagon.Points
import Mathlib.Algebra.Order.Ring.Int
import Mathlib.Data.Finset.Card
import Mathlib.Tactic.Ring

namespace Lifespan

namespace Bound

variable {a b : Bound} {c d : Int}

theorem limit_pos : 0 < limit := by decide

theorem toInt?_eq_some : a.toInt? = some c ↔ a = finite c := by
  cases a <;> simp [toInt?]

@[simp] theorem finite_le_finite : finite c ≤ finite d ↔ c ≤ d := by
  change decide (c ≤ d) = true ↔ c ≤ d
  exact decide_eq_true_iff

@[simp] theorem not_absent_le : ¬ absent ≤ finite c := by
  change ¬ false = true
  simp

theorem le_finite : a ≤ finite c ↔ ∃ d, a = finite d ∧ d ≤ c := by
  cases a <;> simp

theorem le_finite_mono (h : a ≤ finite c) (hcd : c ≤ d) : a ≤ finite d := by
  obtain ⟨e, rfl, he⟩ := le_finite.mp h
  rw [finite_le_finite]
  omega

/-- A bound is known from the numbers it is at most. -/
theorem eq_of_le_finite_iff (h : ∀ c, a ≤ finite c ↔ b ≤ finite c) : a = b := by
  cases a with
  | absent =>
    cases b with
    | absent => rfl
    | finite d => simpa using h d
  | finite c =>
    have hb := (h c).mp (by simp)
    obtain ⟨d, rfl, hd⟩ := le_finite.mp hb
    have hc := (h d).mpr (by simp)
    rw [finite_le_finite] at hc
    rw [show c = d by omega]

theorem min_le_finite : min a b ≤ finite c ↔ a ≤ finite c ∨ b ≤ finite c := by
  change Bound.min a b ≤ finite c ↔ _
  cases a <;> cases b <;> simp only [Bound.min, finite_le_finite, not_absent_le, or_false, false_or]
  split <;> omega

theorem ofInt_le_finite : ofInt c ≤ finite d ↔ c < limit ∧ c ≤ d := by
  unfold ofInt
  split <;> simp_all

theorem add_le_finite : a + b ≤ finite c ↔
    ∃ p q, a = finite p ∧ b = finite q ∧ p + q < limit ∧ p + q ≤ c := by
  change Bound.add a b ≤ finite c ↔ _
  cases a <;> cases b <;> simp [Bound.add, ofInt_le_finite]

end Bound

namespace Matrix

variable {n : Nat} {m k : Matrix n} {i j l : Literal n} {a b c : Int}

/-- A constraint stands in both of its cells, and every literal differs from itself by nothing. -/
structure Regular (m : Matrix n) : Prop where
  coherent : ∀ i j, m.get j.bar i.bar = m.get i j
  diagonal : ∀ i, m.get i i = .finite 0

instance : Decidable m.Regular :=
  decidable_of_iff ((∀ i ∈ Literal.all n, ∀ j ∈ Literal.all n, m.get j.bar i.bar = m.get i j) ∧
      ∀ i ∈ Literal.all n, m.get i i = .finite 0)
    ⟨fun h => ⟨fun i j => h.1 i (Literal.mem_all i) j (Literal.mem_all j),
      fun i => h.2 i (Literal.mem_all i)⟩, fun h =>
        ⟨fun i _ j _ => h.coherent i j, fun i _ => h.diagonal i⟩⟩

/-- The matrix says that `j - i` is at most `c`, or at most less. -/
def Bounds (m : Matrix n) (i j : Literal n) (c : Int) : Prop := m.get i j ≤ .finite c

theorem bounds_of_get (h : m.get i j = .finite c) : m.Bounds i j c := by
  rw [Bounds, h]
  simp

/-- A matrix is known from what it bounds. -/
theorem ext_bounds {k : Matrix n} (h : ∀ i j c, m.Bounds i j c ↔ k.Bounds i j c) : m = k :=
  ext_get fun i j => Bound.eq_of_le_finite_iff (h i j)

theorem Bounds.mono (h : m.Bounds i j a) (hab : a ≤ b) : m.Bounds i j b :=
  Bound.le_finite_mono h hab

theorem Bounds.exists_get (h : m.Bounds i j c) : ∃ d, m.get i j = .finite d ∧ d ≤ c :=
  Bound.le_finite.mp h

theorem Bounds.le_of_get (h : m.Bounds i j c) {d : Int} (hd : m.get i j = .finite d) : d ≤ c := by
  rwa [Bounds, hd, Bound.finite_le_finite] at h

theorem Point.le_of_bounds {v : Fin n → Int} (h : m.Point v) (hc : m.Bounds i j c) :
    j.value v - i.value v ≤ c := by
  obtain ⟨d, hd, hle⟩ := hc.exists_get
  have hcell := h i j
  rw [hd, Bound.allows_finite] at hcell
  omega

theorem Regular.bounds_bar (h : m.Regular) (hc : m.Bounds i j c) : m.Bounds j.bar i.bar c := by
  rwa [Bounds, h.coherent]

theorem bounds_pivot : (m.pivot l).Bounds i j c ↔
    m.Bounds i j c ∨ m.get i l + m.get l j ≤ .finite c := by
  unfold Bounds
  rw [get_pivot]
  cases m.get i l with
  | finite p => exact Bound.min_le_finite
  | absent => simp [Bound.add_le_finite]

theorem Bounds.pivot (h : m.Bounds i j c) (l : Literal n) : (m.pivot l).Bounds i j c :=
  bounds_pivot.mpr (.inl h)

/-- What a pivot adds comes from a way through it. -/
theorem pivot_cases (h : (m.pivot l).Bounds i j c) :
    m.Bounds i j c ∨ ∃ a, m.Bounds i l a ∧ m.Bounds l j (c - a) := by
  rcases bounds_pivot.mp h with h | h
  · exact .inl h
  · obtain ⟨p, q, hp, hq, -, hle⟩ := Bound.add_le_finite.mp h
    exact .inr ⟨p, bounds_of_get hp, (bounds_of_get hq).mono (by omega)⟩

/-- No bound exceeds `u`. -/
def Below (m : Matrix n) (u : Int) : Prop := ∀ i j c, m.get i j = .finite c → c ≤ u

/-- Where two bounds cannot reach the limit together, a pivot adds every way through it. -/
theorem Below.bounds_pivot_add {u : Int} (hu : m.Below u) (hlimit : 2 * u < Bound.limit)
    (ha : m.Bounds i l a) (hb : m.Bounds l j b) : (m.pivot l).Bounds i j (a + b) := by
  obtain ⟨p, hp, hpa⟩ := ha.exists_get
  obtain ⟨q, hq, hqb⟩ := hb.exists_get
  have hpu := hu _ _ _ hp
  have hqu := hu _ _ _ hq
  exact bounds_pivot.mpr (.inr (Bound.add_le_finite.mpr ⟨p, q, hp, hq, by omega, by omega⟩))

/-- No way through `l` is shorter than the direct one. -/
def Through (m : Matrix n) (l : Literal n) : Prop :=
  ∀ i j a b, m.Bounds i l a → m.Bounds l j b → m.Bounds i j (a + b)

section Pivot

variable {u : Int} (hu : m.Below u) (hlimit : 2 * u < Bound.limit)
  (hloop : ∀ c, m.Bounds l l c → 0 ≤ c)

include hu hlimit hloop

/-- A pivot without a negative loop leaves no shorter way through itself. -/
theorem Below.through_pivot : (m.pivot l).Through l := by
  have hto : ∀ i a, (m.pivot l).Bounds i l a → m.Bounds i l a := by
    intro i a h
    rcases pivot_cases h with h | ⟨d, hd, hrest⟩
    · exact h
    · have := hloop _ hrest
      exact hd.mono (by omega)
  have hfrom : ∀ j b, (m.pivot l).Bounds l j b → m.Bounds l j b := by
    intro j b h
    rcases pivot_cases h with h | ⟨d, hd, hrest⟩
    · exact h
    · have := hloop _ hd
      exact hrest.mono (by omega)
  intro i j a b ha hb
  exact hu.bounds_pivot_add hlimit (hto i a ha) (hfrom j b hb)

/-- A later pivot opens no shorter way through an earlier one. -/
theorem Through.pivot {k : Literal n} (hk : m.Through k) : (m.pivot l).Through k := by
  intro i j a b ha hb
  -- either part may have been shortened through `l`
  rcases pivot_cases ha with ha | ⟨d, hil, hlk⟩ <;> rcases pivot_cases hb with hb | ⟨e, hkl, hlj⟩
  · exact (hk i j a b ha hb).pivot l
  · have hi := hk i l a e ha hkl
    exact (hu.bounds_pivot_add hlimit hi hlj).mono (by omega)
  · have hj := hk l j _ b hlk hb
    exact (hu.bounds_pivot_add hlimit hil hj).mono (by omega)
  · have hround := hloop _ (hk l l _ e hlk hkl)
    exact (hu.bounds_pivot_add hlimit hil hlj).mono (by omega)

end Pivot

/-- Bounds lead from `i` to `j` by way of literals in `s`. -/
inductive Reaches (m : Matrix n) (s : Finset (Literal n)) : Literal n → Literal n → Prop
  | direct {i j : Literal n} {c : Int} (h : m.get i j = .finite c) : Reaches m s i j
  | via {i k j : Literal n} {c : Int} (h : m.get i k = .finite c) (hk : k ∈ s)
    (rest : Reaches m s k j) :
    Reaches m s i j

namespace Reaches

variable {s t : Finset (Literal n)}

theorem mono (h : m.Reaches s i j) (hst : s ⊆ t) : m.Reaches t i j := by
  induction h with
  | direct h => exact .direct h
  | via h hk _ ih => exact .via h (hst hk) ih

theorem trans (h : m.Reaches s i l) (hl : l ∈ s) (hj : m.Reaches s l j) : m.Reaches s i j := by
  induction h with
  | direct h => exact .via h hl hj
  | via h hk _ ih => exact .via h hk (ih hl hj)

/-- After its last visit a literal is not needed any more. -/
theorem erase (h : m.Reaches s i j) (l : Literal n) :
    m.Reaches (s.erase l) i j ∨ m.Reaches (s.erase l) l j := by
  induction h with
  | direct h => exact .inl (.direct h)
  | @via i k j c h hk _ ih =>
    rcases ih with ih | ih
    · by_cases hkl : k = l
      · subst hkl
        exact .inr ih
      · exact .inl (.via h (Finset.mem_erase.mpr ⟨hkl, hk⟩) ih)
    · exact .inr ih

/-- A path that passes each literal of `s` at most once bounds the cell of its ends. -/
theorem bounds {u : Int} (hu : m.Below u) (h0 : 0 ≤ u)
    (hkeep : ∀ i j c, m.Bounds i j c → k.Bounds i j c) (hk : ∀ l ∈ s, k.Through l)
    (h : m.Reaches s i j) : k.Bounds i j ((s.card + 1) * u) := by
  induction hs : s.card generalizing s i with
  | zero =>
    cases h with
    | @direct _ _ c h =>
      have hc := hu _ _ _ h
      exact (hkeep _ _ _ (bounds_of_get h)).mono (by omega)
    | via _ hl _ =>
      rw [Finset.card_eq_zero.mp hs] at hl
      cases hl
  | succ r ih =>
    have hnonneg : 0 ≤ (r : Int) * u := Int.mul_nonneg (by omega) h0
    have hsplit : ((r + 1 : Nat) + 1 : Int) * u = r * u + u + u := by
      push_cast
      ring
    rw [hsplit]
    cases h with
    | @direct _ _ c h =>
      have hc := hu _ _ _ h
      exact (hkeep _ _ _ (bounds_of_get h)).mono (by omega)
    | @via _ l _ c h hl rest =>
      have hc := hu _ _ _ h
      have hrest : m.Reaches (s.erase l) l j := (rest.erase l).elim id id
      have hcard : (s.erase l).card = r := by
        rw [Finset.card_erase_of_mem hl, hs]
        rfl
      have hlj := ih (fun p hp => hk p (Finset.mem_of_mem_erase hp)) hrest hcard
      rw [Int.add_mul, Int.one_mul] at hlj
      exact (hk l hl _ _ _ _ (hkeep _ _ _ (bounds_of_get h)) hlj).mono (by omega)

end Reaches

/-- What holds of a matrix `k` that the pivots in `s` have made of `m`. -/
structure Relaxed (m : Matrix n) (s : Finset (Literal n)) (k : Matrix n) : Prop where
  keeps : ∀ i j c, m.Bounds i j c → k.Bounds i j c
  through : ∀ l ∈ s, k.Through l
  reaches : ∀ i j c, k.get i j = .finite c → m.Reaches s i j

theorem relaxed_start (m : Matrix n) : m.Relaxed ∅ m where
  keeps _ _ _ h := h
  through _ h := absurd h (Finset.notMem_empty _)
  reaches _ _ _ h := .direct h

theorem card_literals_le (s : Finset (Literal n)) : s.card ≤ 2 * n := by
  have hsub : s ⊆ (Literal.all n).toFinset := fun l _ => List.mem_toFinset.mpr (Literal.mem_all l)
  calc s.card ≤ (Literal.all n).toFinset.card := Finset.card_le_card hsub
    _ ≤ (Literal.all n).length := List.toFinset_card_le _
    _ = 2 * n := by simp [Literal.all]

theorem card_erase_literals_lt (s : Finset (Literal n)) (i : Literal n) :
    (s.erase i).card < 2 * n := by
  have hle := card_literals_le (insert i (s.erase i))
  rwa [Finset.card_insert_of_notMem (Finset.notMem_erase i s)] at hle

namespace Relaxed

variable {s : Finset (Literal n)} {u : Int}

/-- A path may as well start where it leaves its first literal for good. -/
theorem below (h : m.Relaxed s k) (hu : m.Below u) (h0 : 0 ≤ u) : k.Below (2 * n * u) := by
  intro i j c hc
  have hpath : m.Reaches (s.erase i) i j := ((h.reaches i j c hc).erase i).elim id id
  have hle :=
    (hpath.bounds hu h0 h.keeps fun l hl => h.through l (Finset.mem_of_mem_erase hl)).le_of_get hc
  have hcard : ((s.erase i).card + 1 : Int) ≤ 2 * n := by exact_mod_cast card_erase_literals_lt s i
  calc c ≤ ((s.erase i).card + 1) * u := hle
    _ ≤ 2 * n * u := Int.mul_le_mul_of_nonneg_right hcard h0

theorem pivot (h : m.Relaxed s k) (hu : m.Below u) (h0 : 0 ≤ u)
    (hlimit : 2 * (2 * n * u) < Bound.limit) (hloop : ∀ c, k.Bounds l l c → 0 ≤ c) :
    m.Relaxed (insert l s) (k.pivot l) where
  keeps i j c hc := (h.keeps i j c hc).pivot l
  through p hp := by
    have hbelow := h.below hu h0
    rcases Finset.mem_insert.mp hp with rfl | hp
    · exact hbelow.through_pivot hlimit hloop
    · exact (h.through p hp).pivot hbelow hlimit hloop
  reaches i j c hc := by
    have hgrow : ∀ i j c, k.Bounds i j c → m.Reaches (insert l s) i j := by
      intro i j c hc
      obtain ⟨d, hd, -⟩ := hc.exists_get
      exact (h.reaches i j d hd).mono (Finset.subset_insert l s)
    rcases pivot_cases (bounds_of_get hc) with hc | ⟨a, ha, hrest⟩
    · exact hgrow i j c hc
    · exact (hgrow i l a ha).trans (Finset.mem_insert_self l s) (hgrow l j _ hrest)

theorem foldl_pivot (ls : List (Literal n)) (hu : m.Below u) (h0 : 0 ≤ u)
    (hlimit : 2 * (2 * n * u) < Bound.limit) (h : m.Relaxed s k)
    (hloop : ∀ i c, (ls.foldl Matrix.pivot k).Bounds i i c → 0 ≤ c) :
    m.Relaxed (s ∪ ls.toFinset) (ls.foldl Matrix.pivot k) := by
  induction ls generalizing s k with
  | nil => simpa using h
  | cons l ls ih =>
    -- a negative loop would still be there at the end
    have hkeep : ∀ i j c, k.Bounds i j c → (ls.foldl Matrix.pivot (k.pivot l)).Bounds i j c := by
      intro i j c hc
      exact List.foldlRecOn (motive := fun k : Matrix n => k.Bounds i j c) ls _ (hc.pivot l)
        fun _ hk p _ => hk.pivot p
    have hstep := h.pivot (l := l) hu h0 hlimit fun c hc => hloop l c (hkeep l l c hc)
    have hrest := ih hstep hloop
    have hset : s ∪ (l :: ls).toFinset = insert l s ∪ ls.toFinset := by
      ext p
      simp only [List.toFinset_cons, Finset.mem_union, Finset.mem_insert]
      tauto
    rw [hset]
    exact hrest

end Relaxed

/-- All finite cells are at most `B` in size. -/
def Within (m : Matrix n) (B : Int) : Prop := ∀ i j c, m.get i j = .finite c → |c| ≤ B

instance (B : Int) : Decidable (m.Within B) :=
  decidable_of_iff (∀ i ∈ Literal.all n, ∀ j ∈ Literal.all n, ∀ c ∈ (m.get i j).toInt?, |c| ≤ B)
    ⟨fun h i j c hc => h i (Literal.mem_all i) j (Literal.mem_all j)
      c (Bound.toInt?_eq_some.mpr hc), fun h i _ j _ c hc => h i j c (Bound.toInt?_eq_some.mp hc)⟩

/-- The bounds leave enough room below the limit for the sums along any path. -/
def Small (m : Matrix n) : Prop := ∃ B : Int, 4 * (2 * n + 1) * (B + 1) < Bound.limit ∧ m.Within B

theorem Small.exists_below (h : m.Small) :
    ∃ u, m.Below u ∧ 0 ≤ u ∧ 2 * ((2 * n + 1) * u) < Bound.limit := by
  obtain ⟨B, hlimit, hB⟩ := h
  by_cases h0 : 0 ≤ B
  · refine ⟨B, fun i j c hc => (le_abs_self c).trans (hB i j c hc), h0, ?_⟩
    have hprod : 0 ≤ (2 * n + 1 : Int) * B := Int.mul_nonneg (by omega) h0
    have hsplit : 4 * (2 * n + 1) * (B + 1) = 4 * ((2 * n + 1 : Int) * B) + 4 * (2 * n + 1) := by
      ring
    omega
  · -- then there is no finite cell at all
    refine ⟨0, fun i j c hc => ?_, le_rfl, by simpa using Bound.limit_pos⟩
    have hneg := (abs_nonneg c).trans (hB i j c hc)
    omega

theorem nonneg_of_bounds_self (h : m.hasNegativeLoop = false) (hc : m.Bounds i i c) : 0 ≤ c := by
  obtain ⟨d, hd, hdc⟩ := hc.exists_get
  have hi := List.any_eq_false.mp h i (Literal.mem_all i)
  rw [hd] at hi
  have hnonneg : 0 ≤ d := by simpa [Bound.isNegative] using hi
  omega

theorem get_self_of_bounds (h : m.hasNegativeLoop = false) (hi : m.Bounds i i 0) :
    m.get i i = .finite 0 := by
  obtain ⟨d, hd, hle⟩ := hi.exists_get
  have hnonneg := nonneg_of_bounds_self h (bounds_of_get hd)
  rw [hd, show d = 0 by omega]

section Induction

variable {R : Literal n → Literal n → Int → Prop}
    (hadd : ∀ i l j a b, R i l a → R l j b → R i j (a + b))
  (hm : ∀ i j c, m.Bounds i j c → R i j c)

include hadd hm

/-- What holds of the bounds of a matrix and adds up along paths holds after a pivot. -/
theorem pivot_induction (h : (m.pivot l).Bounds i j c) : R i j c := by
  rcases pivot_cases h with h | ⟨a, ha, hrest⟩
  · exact hm i j c h
  · have hsum := hadd i l j a (c - a) (hm i l a ha) (hm l j _ hrest)
    rwa [show a + (c - a) = c by omega] at hsum

theorem shortestPaths_induction (h : m.shortestPaths.Bounds i j c) : R i j c :=
  List.foldlRecOn (motive := fun k : Matrix n => ∀ i j c, k.Bounds i j c → R i j c)
    (Literal.all n) pivot hm
    (fun _ hk _ _ _ _ _ hc => pivot_induction hadd hk hc) i j c h

end Induction

/-- A regular matrix in which no way around improves a bound, and none comes near the limit. -/
structure PathClosed (m : Matrix n) : Prop extends Regular m where
  through : ∀ l, m.Through l
  exists_below : ∃ u, m.Below u ∧ 0 ≤ u ∧ 2 * u < Bound.limit

theorem Regular.pathClosed (hm : m.Regular) (hsmall : m.Small)
    (hloop : m.shortestPaths.hasNegativeLoop = false) : m.shortestPaths.PathClosed := by
  obtain ⟨u, hu, h0, hroom⟩ := hsmall.exists_below
  have hlimit : 2 * (2 * n * u) < Bound.limit := by
    have hsplit : (2 * n + 1 : Int) * u = 2 * n * u + u := by ring
    omega
  have hrelaxed := Relaxed.foldl_pivot (Literal.all n) hu h0 hlimit (relaxed_start m)
    fun i c hc => nonneg_of_bounds_self hloop hc
  have hthrough : ∀ l, m.shortestPaths.Through l := by
    intro l
    exact hrelaxed.through l (by simp [Literal.mem_all])
  have hbar : ∀ i j c, m.shortestPaths.Bounds i j c → m.shortestPaths.Bounds j.bar i.bar c := by
    intro i j c
    -- seen from the opposite literals, paths run backwards
    refine shortestPaths_induction (R := fun i j c => m.shortestPaths.Bounds j.bar i.bar c) ?_ ?_
    · intro i l j a b ha hb
      have hsum := hthrough l.bar _ _ _ _ hb ha
      rwa [Int.add_comm] at hsum
    · intro i j c hc
      exact hrelaxed.keeps _ _ _ (hm.bounds_bar hc)
  refine ⟨⟨fun i j => ?_, fun i => ?_⟩, hthrough, ?_⟩
  · apply Bound.eq_of_le_finite_iff
    intro c
    refine ⟨fun hc => ?_, hbar i j c⟩
    have hback := hbar _ _ c hc
    rwa [Literal.bar_bar, Literal.bar_bar] at hback
  · apply get_self_of_bounds hloop
    exact hrelaxed.keeps _ _ _ (bounds_of_get (hm.diagonal i))
  · exact ⟨_, hrelaxed.below hu h0, Int.mul_nonneg (by omega) h0, hlimit⟩

end Matrix

end Lifespan
