import Lifespan.Proofs.Octagon.Exactness
import Lifespan.Proofs.Octagon.Representation
import Mathlib.Algebra.Order.Group.Abs

namespace Lifespan

variable {n : Nat}

namespace Matrix

variable {m k : Matrix n} {s : Finset (Literal n)} {i j l : Literal n} {a b c B : Int}
    {v : Fin n → Int}

theorem Within.mono (h : m.Within a) (hab : a ≤ b) : m.Within b :=
  fun i j c hc => (h i j c hc).trans hab

/-- Bounds from `i` to `j` by way of literals in `s` add up to `c`. -/
inductive Walk (m : Matrix n) (s : Finset (Literal n)) : Literal n → Literal n → Int → Prop
  | direct {i j : Literal n} {c : Int} (h : m.Bounds i j c) : Walk m s i j c
  | via {i k j : Literal n} {a b : Int} (h : m.Bounds i k a) (hk : k ∈ s) (rest : Walk m s k j b) :
    Walk m s i j (a + b)

namespace Walk

theorem trans (h : m.Walk s i l a) (hl : l ∈ s) (hj : m.Walk s l j b) : m.Walk s i j (a + b) := by
  induction h with
  | direct h => exact .via h hl hj
  | via h hk _ ih =>
    rw [Int.add_assoc]
    exact .via h hk (ih hl hj)

/-- The part up to the last visit of a literal costs at least what the literal is worth at
a point. -/
theorem erase (hv : m.Point v) (h : m.Walk s i j c) (l : Literal n) :
    m.Walk (s.erase l) i j c ∨ ∃ d, m.Walk (s.erase l) l j d ∧ d + (l.value v - i.value v) ≤ c := by
  induction h with
  | direct h => exact .inl (.direct h)
  | @via i k j a b h hk _ ih =>
    have hstep := hv.le_of_bounds h
    rcases ih with hrest | ⟨d, hrest, hd⟩
    · by_cases hkl : k = l
      · subst hkl
        exact .inr ⟨b, hrest, by omega⟩
      · exact .inl (.via h (Finset.mem_erase.mpr ⟨hkl, hk⟩) hrest)
    · exact .inr ⟨d, hrest, by omega⟩

/-- The part of a walk after it leaves `i` for good is no longer than the walk, so each literal
counts once. -/
theorem neg_le (hv : m.Point v) (hB : m.Within B) (h0 : 0 ≤ B) (h : m.Walk s i j c) :
    -((s.card + 1) * B) ≤ c := by
  have hcell : ∀ i j c, m.Bounds i j c → -B ≤ c := by
    intro i j c hc
    obtain ⟨d, hd, hdc⟩ := hc.exists_get
    have hlow := (abs_le.mp (hB i j d hd)).1
    omega
  induction hs : s.card generalizing s i c with
  | zero =>
    cases h with
    | direct h =>
      have hc := hcell _ _ _ h
      omega
    | via _ hl _ =>
      rw [Finset.card_eq_zero.mp hs] at hl
      cases hl
  | succ r ih =>
    have hnonneg : 0 ≤ (r : Int) * B := Int.mul_nonneg (by omega) h0
    have hsplit : ((r + 1 : Nat) + 1 : Int) * B = r * B + B + B := by
      push_cast
      ring
    rw [hsplit]
    cases h with
    | direct h =>
      have hc := hcell _ _ _ h
      omega
    | @via _ l _ a b h hl rest =>
      have ha := hcell _ _ _ h
      have hcard : (s.erase l).card = r := by
        rw [Finset.card_erase_of_mem hl, hs]
        rfl
      obtain ⟨d, hrest, hd⟩ : ∃ d, m.Walk (s.erase l) l j d ∧ d ≤ b := by
        rcases rest.erase hv l with hrest | ⟨d, hrest, hd⟩
        · exact ⟨b, hrest, le_rfl⟩
        · exact ⟨d, hrest, by omega⟩
      have hle := ih hrest hcard
      rw [Int.add_mul, Int.one_mul] at hle
      omega

end Walk

theorem walk_of_shortestPaths (h : m.shortestPaths.Bounds i j c) :
    m.Walk (Literal.all n).toFinset i j c :=
  shortestPaths_induction (R := m.Walk (Literal.all n).toFinset)
    (fun _ l _ _ _ ha hb => ha.trans (List.mem_toFinset.mpr (Literal.mem_all l)) hb)
    (fun _ _ _ hc => .direct hc) h

/-- The start of a walk need not be visited again. -/
theorem Walk.neg_le_all (hv : m.Point v) (hB : m.Within B) (h0 : 0 ≤ B) (h : m.Walk s i j c) :
    -(2 * n * B) ≤ c := by
  obtain ⟨d, hd, hdc⟩ : ∃ d, m.Walk (s.erase i) i j d ∧ d ≤ c := by
    rcases h.erase hv i with h | ⟨d, hd, hle⟩
    · exact ⟨c, h, le_rfl⟩
    · exact ⟨d, hd, by omega⟩
  have hle := hd.neg_le hv hB h0
  have hcard : ((s.erase i).card + 1 : Int) ≤ 2 * n := by exact_mod_cast card_erase_literals_lt s i
  have hmul := Int.mul_le_mul_of_nonneg_right hcard h0
  omega

/-- Closing enlarges no bound beyond what a path through all literals can add up to. -/
theorem Regular.within_of_close? (hm : m.Regular) (hB : m.Within B) (h0 : 0 ≤ B)
    (hlimit : 4 * (2 * n + 1) * (B + 1) < Bound.limit) (h : m.close? = some k) :
    k.Within ((2 * n + 1) * (B + 1)) := by
  have hsmall : m.Small := ⟨B, hlimit, hB⟩
  have htight := hm.tight_of_close? hsmall h
  obtain ⟨v, hv⟩ := htight.exists_point
  rw [point_close? h] at hv
  obtain ⟨hneg, hrange, hloop, rfl⟩ := close?_eq_some.mp h
  have hpaths := hm.pathClosed hsmall hneg
  rw [zeroDiagonal_eq (hpaths.tight hrange hloop).diagonal]
  have hlow : ∀ i j c, m.shortestPaths.Bounds i j c → -(2 * n * B) ≤ c := by
    intro i j c hc
    exact (walk_of_shortestPaths hc).neg_le_all hv hB h0
  have hhigh : m.shortestPaths.Below (2 * n * B) := by
    have hprod : 0 ≤ (2 * n : Int) * B := Int.mul_nonneg (by omega) h0
    have hsplit : 4 * (2 * n + 1) * (B + 1) =
        4 * ((2 * n : Int) * B) + 4 * B + 4 * (2 * n + 1) := by ring
    have hbelow : m.Below B := fun i j c hc => (abs_le.mp (hB i j c hc)).2
    exact (Relaxed.foldl_pivot (Literal.all n) hbelow h0 (by omega) (relaxed_start m)
      fun i c hc => nonneg_of_bounds_self hneg hc).below hbelow h0
  intro i j c hc
  have hwide : (2 * n + 1 : Int) * (B + 1) = 2 * n * B + B + 2 * n + 1 := by ring
  rw [hwide, abs_le]
  rcases hpaths.bounds_strengthen.mp (bounds_of_get hc) with hpath | ⟨d, hd, hrest⟩
  · obtain ⟨p, hp, hpc⟩ := hpath.exists_get
    have hle := (hpaths.bounds_strengthen.mpr (.inl (bounds_of_get hp))).le_of_get hc
    have hp' := hhigh _ _ _ hp
    have hc' := hlow _ _ _ hpath
    omega
  · -- the two halves are bounded like paths
    obtain ⟨p, hp, hpd⟩ := hd.exists_get
    obtain ⟨q, hq, hqd⟩ := hrest.exists_get
    have hp' := hhigh _ _ _ hp
    have hq' := hhigh _ _ _ hq
    have hd' := hlow _ _ _ hd
    have hrest' := hlow _ _ _ hrest
    have hle := (hpaths.bounds_strengthen (i := i) (j := j) (c := p / 2 + q / 2)).mpr
      (.inr ⟨p / 2, (bounds_of_get hp).mono (by omega), (bounds_of_get hq).mono (by omega)⟩)
    have hc' := hle.le_of_get hc
    omega

end Matrix

namespace Octagon

variable {s : Octagon n} {m : Matrix n} {B : Int}

/-- All finite cells of the matrix, if there is one, are at most `B` in size. -/
def Within (s : Octagon n) (B : Int) : Prop := ∀ m, s.matrix? = some m → m.Within B

theorem Within.closable (h : s.Within B) (hlimit : 4 * (2 * n + 1) * (B + 1) < Bound.limit) :
    s.Closable := by
  rintro m rfl
  exact ⟨B, hlimit, h m rfl⟩

theorem Built.regular {moved : Matrix n → Prop} (h : Built moved s) (hm : s.matrix? = some m) :
    m.Regular :=
  (h.represents (marked_regular moved)).regular (marked_regular moved) hm

theorem Built.within_closure? {moved : Matrix n → Prop} (h : Built moved s)
    (hB : s.Within B) (h0 : 0 ≤ B) (hlimit : 4 * (2 * n + 1) * (B + 1) < Bound.limit)
    (hm : s.closure? = some m) :
    m.Within ((2 * n + 1) * (B + 1)) := by
  cases s with
  | empty => cases hm
  | loose k => exact (h.regular rfl).within_of_close? (hB k rfl) h0 hlimit hm
  | tight k =>
    obtain rfl := Option.some.inj hm
    apply (hB k rfl).mono
    calc B ≤ B + 1 := by omega
      _ ≤ (2 * n + 1) * (B + 1) := le_mul_of_one_le_left (by omega) (by omega)

end Octagon

end Lifespan
