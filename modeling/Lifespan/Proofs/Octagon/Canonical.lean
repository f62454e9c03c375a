import Lifespan.Proofs.Octagon.Exactness
import Lifespan.Proofs.Octagon.Representation

namespace Lifespan

variable {n : Nat}

namespace Matrix.Tight

variable {m k : Matrix n} {i j : Literal n} {c : Int}

/-- The bounds of a tight matrix are those that hold at all of its points. -/
theorem bounds_iff (hm : m.Tight) :
    m.Bounds i j c ↔ ∀ v, m.Point v → j.value v - i.value v ≤ c := by
  refine ⟨fun hc v hv => hv.le_of_bounds hc, fun hall => ?_⟩
  by_contra hc
  have habove : ∀ d, m.Bounds i j d → c + 1 ≤ d := by
    intro d hd
    by_contra hle
    exact hc (hd.mono (by omega))
  obtain ⟨v, hv, hge⟩ := hm.exists_point_ge i j (c + 1) habove
  have hle := hall v hv
  omega

theorem eq_of_points (hm : m.Tight) (hk : k.Tight) (h : ∀ v, m.Point v ↔ k.Point v) : m = k := by
  apply ext_bounds
  intro i j c
  simp only [hm.bounds_iff, hk.bounds_iff, h]

end Matrix.Tight

namespace Octagon

variable {s a b : Octagon n}

theorem Built.tight_of_closure? (h : Built Matrix.Small s) (hs : s.Closable) {m : Matrix n}
    (hm : s.closure? = some m) : m.Tight :=
  (h.represents (marked_tight fun _ hm => hm)).of_closure? (marked_tight fun _ hm => hm) hs hm

theorem Built.closure?_eq_none_iff (h : Built Matrix.Small s) (hs : s.Closable) :
    s.closure? = none ↔ ¬ ∃ v, s.Point v := by
  constructor
  · rintro hnone ⟨v, hv⟩
    exact not_point_of_closure? hnone hv
  · intro hempty
    cases hm : s.closure? with
    | none => rfl
    | some m =>
      obtain ⟨v, hv⟩ := (h.tight_of_closure? hs hm).exists_point
      exact absurd ⟨v, (point_of_closure? hm).mpr hv⟩ hempty

theorem Built.closure?_eq_of_points (ha : Built Matrix.Small a) (hb : Built Matrix.Small b)
    (hca : a.Closable) (hcb : b.Closable) (h : ∀ v, a.Point v ↔ b.Point v) :
    a.closure? = b.closure? := by
  have hexists : (∃ v, a.Point v) ↔ ∃ v, b.Point v := exists_congr h
  cases hm : a.closure? with
  | none =>
    have hempty := (ha.closure?_eq_none_iff hca).mp hm
    rw [hexists] at hempty
    exact ((hb.closure?_eq_none_iff hcb).mpr hempty).symm
  | some m =>
    cases hk : b.closure? with
    | none =>
      have hempty := (hb.closure?_eq_none_iff hcb).mp hk
      rw [← hexists, ← ha.closure?_eq_none_iff hca, hm] at hempty
      cases hempty
    | some k =>
      have hpoints : ∀ v, m.Point v ↔ k.Point v := by
        intro v
        rw [← point_of_closure? hm, ← point_of_closure? hk, h v]
      rw [(ha.tight_of_closure? hca hm).eq_of_points (hb.tight_of_closure? hcb hk) hpoints]

/-- Octagons that the operations build, closed or not, are the same exactly if they have the same
points, and empty exactly if they have none. One that is closed has the closure of any other with
its points. -/
theorem same_iff_points (a b : Octagon n) (ha : Built Matrix.Small a) (hb : Built Matrix.Small b)
    (hca : a.Closable) (hcb : b.Closable) :
    (a.same b = true ↔ ∀ v, a.Point v ↔ b.Point v) ∧
    (a.isEmpty = true ↔ ¬ ∃ v, a.Point v) ∧
    ∀ m k, a = loose m → b = tight k → (∀ v, a.Point v ↔ b.Point v) → m.close? = some k := by
  refine ⟨⟨fun h v => point_of_same h, fun h => ?_⟩, ?_, ?_⟩
  · exact decide_eq_true (ha.closure?_eq_of_points hb hca hcb h)
  · rw [isEmpty, Option.isNone_iff_eq_none, ha.closure?_eq_none_iff hca]
  · rintro m k rfl rfl h
    exact ha.closure?_eq_of_points hb hca hcb h

/-- `x ≤ y` and `y ≤ 5`. -/
def wedge : Octagon 2 :=
  ((top 2).meet ⟨.sub (.const 5) (.var yVar), .ge⟩).meet ⟨.sub (.var yVar) (.var xVar), .ge⟩

theorem built_wedge : Built Matrix.Small wedge := by
  have hfirst : ∀ m ∈ (top 2).refined? ⟨.sub (.const 5) (.var yVar), .ge⟩, m.Within 10 := by
    decide +kernel
  have hsecond : ∀ m ∈ ((top 2).meet ⟨.sub (.const 5) (.var yVar), .ge⟩).refined?
      ⟨.sub (.var yVar) (.var xVar), .ge⟩, m.Within 10 := by decide +kernel
  have hhalf : Built Matrix.Small ((top 2).meet ⟨.sub (.const 5) (.var yVar), .ge⟩) :=
    .meet .top (fun _ h => nomatch h) _ fun m hm => ⟨10, by decide, hfirst m hm⟩
  exact hhalf.meet (closable_meet _ _) _ fun m hm => ⟨10, by decide, hsecond m hm⟩

/-- The wedge up to `x ≤ 3`, widened by the wedge up to `x ≤ 4`. -/
def openedWedge : Octagon 2 :=
  (wedge.meet ⟨.sub (.const 3) (.var xVar), .ge⟩).widen
    (wedge.meet ⟨.sub (.const 4) (.var xVar), .ge⟩)

/-- The widening drops the bound on `x` and does not notice that `x ≤ 5` still follows, so its
matrix is not that of the wedge. -/
theorem same_iff_points_openedWedge :
    Built Matrix.Small openedWedge ∧ openedWedge.matrix? ≠ wedge.matrix? ∧
    openedWedge.same wedge = true ∧ ∀ v, openedWedge.Point v ↔ wedge.Point v := by
  have hthree : ∀ m ∈ wedge.refined? ⟨.sub (.const 3) (.var xVar), .ge⟩, m.Within 10 := by
    decide +kernel
  have hfour : ∀ m ∈ wedge.refined? ⟨.sub (.const 4) (.var xVar), .ge⟩, m.Within 10 := by
    decide +kernel
  have hB : ∀ m ∈ openedWedge.matrix?, m.Within 10 := by decide +kernel
  have hsame : openedWedge.same wedge = true := by decide +kernel
  have hbefore := built_wedge.meet (closable_meet _ _) ⟨.sub (.const 3) (.var xVar), .ge⟩
    fun m hm => ⟨10, by decide, hthree m hm⟩
  have hafter := built_wedge.meet (closable_meet _ _) ⟨.sub (.const 4) (.var xVar), .ge⟩
    fun m hm => ⟨10, by decide, hfour m hm⟩
  have hbuilt : Built Matrix.Small openedWedge := hbefore.widen hafter (closable_meet _ _)
  have hclosable : openedWedge.Closable := fun m hm => ⟨10, by decide, hB m (by rw [hm]; rfl)⟩
  obtain ⟨hiff, -, -⟩ :=
    same_iff_points openedWedge wedge hbuilt built_wedge hclosable (closable_meet _ _)
  exact ⟨hbuilt, by decide +kernel, hsame, hiff.mp hsame⟩

end Octagon

end Lifespan
