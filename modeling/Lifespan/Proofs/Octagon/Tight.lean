import Lifespan.Proofs.Octagon.Closure
import Lifespan.Proofs.Octagon.ShortestPaths

namespace Lifespan

namespace Bound

variable {a b : Bound} {c u : Int}

theorem even_le_finite : a.even ≤ finite c ↔ a ≤ finite (2 * (c / 2) + 1) := by
  cases a with
  | absent => simp [even]
  | finite p =>
    simp only [even, finite_le_finite]
    omega

/-- Half the sum of two rounded bounds splits into two halves. -/
theorem halfSum_even_le_finite (ha : ∀ p, a = finite p → p ≤ u) (hb : ∀ p, b = finite p → p ≤ u)
    (hu : u < limit) :
    a.even.halfSum b.even ≤ finite c ↔
    ∃ d, a ≤ finite (2 * d + 1) ∧ b ≤ finite (2 * (c - d) + 1) := by
  cases a with
  | absent => simp [even, halfSum]
  | finite p =>
    cases b with
    | absent => simp [even, halfSum]
    | finite q =>
      have hp := ha p rfl
      have hq := hb q rfl
      simp only [even, halfSum, ofInt_le_finite, finite_le_finite]
      constructor
      · rintro ⟨-, hle⟩
        exact ⟨p / 2, by omega, by omega⟩
      · rintro ⟨d, hpd, hqd⟩
        omega

end Bound

namespace Matrix

variable {n : Nat} {m k : Matrix n} {i j l : Literal n} {a b c : Int}

/-- A regular matrix whose bounds are as tight as paths, the parity of `x - (-x)` and the unary
bounds can make them. -/
structure Tight (m : Matrix n) : Prop extends Regular m where
  through : ∀ l, m.Through l
  even : ∀ i c, m.get i i.bar = .finite c → c % 2 = 0
  strong : ∀ i j a b, m.Bounds i i.bar a → m.Bounds j.bar j b → m.Bounds i j ((a + b) / 2)

theorem get_tighten_bar (m : Matrix n) (i : Literal n) :
    m.tighten.get i i.bar = (m.get i i.bar).even := by
  simp [tighten]

theorem bounds_tighten (m : Matrix n) (i j : Literal n) (c : Int) : m.tighten.Bounds i j c ↔
    m.Bounds i j c ∨ j = i.bar ∧ m.Bounds i j (2 * (c / 2) + 1) := by
  unfold Bounds tighten
  rw [get_ofFn]
  split
  case isTrue hj =>
    rw [Bound.even_le_finite]
    refine ⟨fun h => .inr ⟨hj, h⟩, ?_⟩
    rintro (h | ⟨-, h⟩)
    · exact Bound.le_finite_mono h (by omega)
    · exact h
  case isFalse hj =>
    simp [hj]

namespace PathClosed

/-- A strengthened bound is a path, or two unary bounds rounded down. -/
theorem bounds_strengthen (h : m.PathClosed) : m.tighten.strengthen.Bounds i j c ↔
    m.Bounds i j c ∨ ∃ d, m.Bounds i i.bar (2 * d + 1) ∧ m.Bounds j.bar j (2 * (c - d) + 1) := by
  obtain ⟨u, hu, h0, hlimit⟩ := h.exists_below
  have hj : m.tighten.get j.bar j = (m.get j.bar j).even := by
    simpa using m.get_tighten_bar j.bar
  have hhalf := Bound.halfSum_even_le_finite (c := c) (hu i i.bar) (hu j.bar j) (by omega)
  have hcell : m.tighten.strengthen.Bounds i j c ↔ m.tighten.Bounds i j c ∨
      ∃ d, m.Bounds i i.bar (2 * d + 1) ∧ m.Bounds j.bar j (2 * (c - d) + 1) := by
    unfold Bounds strengthen
    rw [get_ofFn, Bound.min_le_finite, m.get_tighten_bar, hj, hhalf]
  rw [hcell, m.bounds_tighten]
  constructor
  · rintro ((hc | ⟨rfl, hc⟩) | hc)
    · exact .inl hc
    · -- a rounded unary bound is twice the same half
      refine .inr ⟨c / 2, hc, ?_⟩
      rw [Literal.bar_bar]
      exact hc.mono (by omega)
    · exact .inr hc
  · rintro (hc | hc)
    · exact .inl (.inl hc)
    · exact .inr hc

theorem bounds_strengthen_unary (h : m.PathClosed) :
    m.tighten.strengthen.Bounds i i.bar c ↔ m.Bounds i i.bar (2 * (c / 2) + 1) := by
  rw [h.bounds_strengthen, Literal.bar_bar]
  constructor
  · rintro (hc | ⟨d, hd, hrest⟩)
    · exact hc.mono (by omega)
    · -- the smaller half is at most half of the sum
      rcases Int.le_total d (c - d) with hle | hle
      · exact hd.mono (by omega)
      · exact hrest.mono (by omega)
  · intro hc
    exact .inr ⟨c / 2, hc, hc.mono (by omega)⟩

/-- Where no literal has its upper bound below its lower one, two rounded halves are
no contradiction. -/
theorem nonneg_of_halves (h : m.PathClosed) (hrange : m.tighten.strengthen.hasEmptyRange = false)
    (ha : m.Bounds l.bar l (2 * a + 1)) (hb : m.Bounds l l.bar (2 * b + 1)) : 0 ≤ a + b := by
  have hup : m.tighten.strengthen.Bounds l.bar l (2 * a) := by
    have hbar := h.bounds_strengthen_unary (i := l.bar) (c := 2 * a)
    rw [Literal.bar_bar] at hbar
    exact hbar.mpr (ha.mono (by omega))
  have hdown : m.tighten.strengthen.Bounds l l.bar (2 * b) :=
    h.bounds_strengthen_unary.mpr (hb.mono (by omega))
  obtain ⟨p, hp, hpa⟩ := hup.exists_get
  obtain ⟨q, hq, hqb⟩ := hdown.exists_get
  have hl := List.any_eq_false.mp hrange l (Literal.mem_all l)
  rw [hq, hp] at hl
  have hnonneg : 0 ≤ q + p := by
    by_contra hneg
    have hlt : q + p < Bound.limit := by
      have := Bound.limit_pos
      omega
    apply hl
    change (Bound.ofInt (q + p)).isNegative = true
    rw [Bound.ofInt, if_pos hlt]
    exact decide_eq_true (by omega)
  omega

/-- Nothing more can be tightened. -/
theorem tight (h : m.PathClosed) (hrange : m.tighten.strengthen.hasEmptyRange = false)
    (hloop : m.tighten.strengthen.hasNegativeLoop = false) : m.tighten.strengthen.Tight where
  coherent i j := by
    apply Bound.eq_of_le_finite_iff
    intro c
    have hswap : ∀ i j : Literal n, m.tighten.strengthen.Bounds i j c →
        m.tighten.strengthen.Bounds j.bar i.bar c := by
      intro i j hc
      rw [h.bounds_strengthen] at hc ⊢
      rcases hc with hc | ⟨d, hd, hrest⟩
      · exact .inl (h.toRegular.bounds_bar hc)
      · refine .inr ⟨c - d, ?_, ?_⟩
        · rwa [Literal.bar_bar]
        · rw [Literal.bar_bar]
          exact hd.mono (by omega)
    refine ⟨fun hc => ?_, hswap i j⟩
    have hback := hswap _ _ hc
    rwa [Literal.bar_bar, Literal.bar_bar] at hback
  diagonal i := by
    apply get_self_of_bounds hloop
    exact h.bounds_strengthen.mpr (.inl (bounds_of_get (h.diagonal i)))
  through l i j a b ha hb := by
    rw [h.bounds_strengthen] at ha hb ⊢
    rcases ha with ha | ⟨d, hd, hrest⟩ <;> rcases hb with hb | ⟨e, he, hrest'⟩
    · exact .inl (h.through l i j a b ha hb)
    · -- the path to `l` goes to the opposite of `l` and back
      have hback := h.toRegular.bounds_bar ha
      have hround := h.through l.bar i i.bar _ _ (h.through l i l.bar _ _ ha he) hback
      exact .inr ⟨a + e, hround.mono (by omega), hrest'.mono (by omega)⟩
    · have hback := h.toRegular.bounds_bar hb
      have hround := h.through l j.bar j _ _ (h.through l.bar j.bar l _ _ hback hrest) hb
      exact .inr ⟨d, hd, hround.mono (by omega)⟩
    · have hnonneg := h.nonneg_of_halves hrange hrest he
      exact .inr ⟨d, hd, hrest'.mono (by omega)⟩
  even i c hc := by
    -- an odd bound would be rounded further
    by_contra hodd
    have hle := h.bounds_strengthen_unary.mp (bounds_of_get hc)
    have hless : m.tighten.strengthen.Bounds i i.bar (c - 1) :=
      h.bounds_strengthen_unary.mpr (hle.mono (by omega))
    have hlt := hless.le_of_get hc
    omega
  strong i j a b ha hb := by
    have hi := h.bounds_strengthen_unary.mp ha
    have hj : m.Bounds j.bar j (2 * (b / 2) + 1) := by
      have hbar := h.bounds_strengthen_unary (i := j.bar) (c := b)
      rw [Literal.bar_bar] at hbar
      exact hbar.mp hb
    exact h.bounds_strengthen.mpr (.inr ⟨a / 2, hi, hj.mono (by omega)⟩)

end PathClosed

theorem zeroDiagonal_eq (h : ∀ i, m.get i i = .finite 0) : m.zeroDiagonal = m := by
  apply ext_get
  intro i j
  rw [zeroDiagonal, get_ofFn]
  split
  case isTrue hij =>
    rw [← hij, h i]
  case isFalse => rfl

theorem close?_eq_some : m.close? = some k ↔
    m.shortestPaths.hasNegativeLoop = false ∧
    m.shortestPaths.tighten.strengthen.hasEmptyRange = false ∧
    m.shortestPaths.tighten.strengthen.hasNegativeLoop = false ∧
    m.shortestPaths.tighten.strengthen.zeroDiagonal = k := by
  simp [close?, and_assoc]

/-- Closing a regular matrix with small bounds gives a tight one. -/
theorem Regular.tight_of_close? (hm : m.Regular) (hsmall : m.Small) (h : m.close? = some k) :
    k.Tight := by
  obtain ⟨hneg, hrange, hloop, rfl⟩ := close?_eq_some.mp h
  have htight := (hm.pathClosed hsmall hneg).tight hrange hloop
  rwa [zeroDiagonal_eq htight.diagonal]

namespace Tight

theorem pivot_eq (h : m.Tight) (l : Literal n) : m.pivot l = m := by
  apply ext_bounds
  intro i j c
  refine ⟨fun hc => ?_, fun hc => Bounds.pivot hc l⟩
  rcases pivot_cases hc with hc | ⟨a, ha, hrest⟩
  · exact hc
  · exact (h.through l i j _ _ ha hrest).mono (by omega)

theorem shortestPaths_eq (h : m.Tight) : m.shortestPaths = m :=
  List.foldlRecOn (motive := (· = m)) _ _ rfl fun _ hk l _ => by rw [hk, h.pivot_eq l]

theorem tighten_eq (h : m.Tight) : m.tighten = m := by
  apply ext_get
  intro i j
  rw [tighten, get_ofFn]
  split
  case isTrue hj =>
    subst hj
    cases hc : m.get i i.bar with
    | absent => rfl
    | finite c =>
      have heven := h.even i c hc
      rw [Bound.even, show 2 * (c / 2) = c by omega]
  case isFalse => rfl

theorem strengthen_eq (h : m.Tight) : m.strengthen = m := by
  apply ext_bounds
  intro i j c
  rw [Bounds, strengthen, get_ofFn, Bound.min_le_finite]
  refine ⟨?_, .inl⟩
  rintro (hc | hc)
  · exact hc
  · cases ha : m.get i i.bar with
    | absent => simp [ha, Bound.halfSum] at hc
    | finite a =>
      cases hb : m.get j.bar j with
      | absent => simp [ha, hb, Bound.halfSum] at hc
      | finite b =>
        rw [ha, hb, Bound.halfSum, Bound.ofInt_le_finite] at hc
        exact (h.strong i j a b (bounds_of_get ha) (bounds_of_get hb)).mono hc.2

theorem nonneg_of_bounds_self (h : m.Tight) (hc : m.Bounds i i c) : 0 ≤ c :=
  hc.le_of_get (h.diagonal i)

theorem not_hasNegativeLoop (h : m.Tight) : m.hasNegativeLoop = false := by
  apply List.any_eq_false.mpr
  intro i _
  simp [h.diagonal i, Bound.isNegative]

theorem not_hasEmptyRange (h : m.Tight) : m.hasEmptyRange = false := by
  apply List.any_eq_false.mpr
  intro i _ hneg
  cases hsum : m.get i i.bar + m.get i.bar i with
  | absent => simp [hsum, Bound.isNegative] at hneg
  | finite c =>
    have hle : m.get i i.bar + m.get i.bar i ≤ .finite c := by simp [hsum]
    obtain ⟨p, q, hp, hq, -, hpq⟩ := Bound.add_le_finite.mp hle
    have hround := h.through i.bar i i p q (bounds_of_get hp) (bounds_of_get hq)
    have hnonneg := h.nonneg_of_bounds_self hround
    rw [hsum] at hneg
    have hc : c < 0 := by simpa [Bound.isNegative] using hneg
    omega

/-- Closing a tight matrix changes nothing. -/
theorem close?_eq (h : m.Tight) : m.close? = some m := by
  rw [close?_eq_some, h.shortestPaths_eq, h.tighten_eq, h.strengthen_eq]
  exact ⟨h.not_hasNegativeLoop, h.not_hasEmptyRange, h.not_hasNegativeLoop,
    zeroDiagonal_eq h.diagonal⟩

end Tight

end Matrix

end Lifespan
