import Lifespan.Proofs.Octagon.Tight

namespace Lifespan.Matrix

variable {n : Nat} {m k l : Matrix n} {v : Fin n → Int}

/-- Every bound of `m` is one of `k`. -/
def Refines (k m : Matrix n) : Prop := ∀ i j c, m.Bounds i j c → k.Bounds i j c

namespace Refines

theorem refl (m : Matrix n) : m.Refines m := fun _ _ _ h => h

theorem trans (hlk : l.Refines k) (hkm : k.Refines m) : l.Refines m :=
  fun i j c h => hlk i j c (hkm i j c h)

theorem point (h : k.Refines m) (hv : k.Point v) : m.Point v := by
  intro i j
  cases hc : m.get i j with
  | absent => exact Bound.allows_absent
  | finite c => exact hv.le_of_bounds (h i j c (bounds_of_get hc))

end Refines

theorem refines_refine (m : Matrix n) (i j : Literal n) (c : Int) : (m.refine i j c).Refines m := by
  intro p q d h
  rw [Bounds, refine, get_set]
  split
  case isTrue hpq =>
    obtain ⟨rfl, rfl⟩ := hpq
    exact Bound.min_le_finite.mpr (.inl h)
  case isFalse => exact h

theorem refines_addSum (m : Matrix n) (i j : Literal n) (c : Int) : (m.addSum i j c).Refines m :=
  (refines_refine _ _ _ _).trans (refines_refine _ _ _ _)

theorem refines_addScaled (m : Matrix n) (x : Fin n) (a c : Int) :
    (m.addScaled x a c).Refines m := by
  unfold addScaled
  split
  · exact refines_refine _ _ _ _
  · split
    · exact refines_refine _ _ _ _
    · exact .refl m

theorem refines_addInterval (m : Matrix n) (x : Fin n) (a : Interval) :
    (m.addInterval x a).Refines m := by
  obtain ⟨lo, hi⟩ := a
  cases lo <;> cases hi
  · exact .refl m
  · exact refines_refine _ _ _ _
  · exact refines_refine _ _ _ _
  · exact (refines_refine _ _ _ _).trans (refines_refine _ _ _ _)

theorem refines_addSpread (m : Matrix n) (s : List (Fin n × Int)) (c : Int) :
    (m.addSpread s c).Refines m := by
  -- the matrix changes from summand to summand, and each change only refines it
  refine List.foldlRecOn (motive := fun k : Matrix n => k.Refines m) s _ (.refl m) ?_
  rintro k hk ⟨x, a⟩ -
  dsimp only
  split
  · exact (refines_addScaled _ _ _ _).trans hk
  · exact hk

theorem refines_of_addNonneg {f : Linear n} (h : m.addNonneg f = some k) : k.Refines m := by
  unfold addNonneg at h
  split at h
  · cases h
  · dsimp only at h
    split at h
    · obtain rfl := Option.some.inj h
      exact refines_addSum _ _ _ _
    · split at h
      · obtain rfl := Option.some.inj h
        exact .refl m
      · cases h
    · obtain rfl := Option.some.inj h
      exact refines_addScaled _ _ _ _
    · obtain rfl := Option.some.inj h
      exact refines_addSpread _ _ _

theorem refines_of_addLinear {f : Linear n} {r : Relation} (h : m.addLinear f r = some k) :
    k.Refines m := by
  cases r with
  | ge => exact refines_of_addNonneg h
  | gt => exact refines_of_addNonneg h
  | eq =>
    obtain ⟨l, hl, h⟩ := Option.bind_eq_some_iff.mp h
    exact (refines_of_addNonneg h).trans (refines_of_addNonneg hl)
  | ne =>
    unfold addLinear at h
    dsimp only at h
    split at h
    · cases h
    · split at h
      · exact refines_of_addNonneg h
      · split at h
        · exact refines_of_addNonneg h
        · obtain rfl := Option.some.inj h
          exact .refl m

theorem refines_relate (m : Matrix n) (x y : Fin n) (c : Int) (rest : Interval) :
    (m.relate x y c rest).Refines m := by
  obtain ⟨lo, hi⟩ := rest
  cases lo <;> cases hi
  · exact .refl m
  · exact refines_addSum _ _ _ _
  · exact refines_addSum _ _ _ _
  · exact (refines_addSum _ _ _ _).trans (refines_addSum _ _ _ _)

/-- What is known of the new value of `x` is added to what does not mention `x`. -/
theorem assignLinear_refines_forget (m : Matrix n) (x : Fin n) (f : Linear n) :
    (m.assignLinear x f).Refines (m.forget x) :=
  List.foldlRecOn (motive := fun k : Matrix n => k.Refines (m.forget x))
    _ _ (refines_addInterval _ _ _)
    fun _ hk _ _ => (refines_relate _ _ _ _ _).trans hk

theorem refines_shortestPaths (m : Matrix n) : m.shortestPaths.Refines m :=
  List.foldlRecOn (motive := fun k : Matrix n => k.Refines m) _ _ (.refl m)
    fun _ hk l _ i j c h => (hk i j c h).pivot l

theorem refines_tighten (m : Matrix n) : m.tighten.Refines m :=
  fun i j c h => (m.bounds_tighten i j c).mpr (.inl h)

theorem refines_strengthen (m : Matrix n) : m.strengthen.Refines m := by
  intro i j c h
  rw [Bounds, strengthen, get_ofFn]
  exact Bound.min_le_finite.mpr (.inl h)

theorem zeroDiagonal_refines (h : m.hasNegativeLoop = false) : m.zeroDiagonal.Refines m := by
  intro i j c hc
  rw [Bounds, zeroDiagonal, get_ofFn]
  split
  case isTrue hij =>
    subst hij
    exact Bound.finite_le_finite.mpr (nonneg_of_bounds_self h hc)
  case isFalse => exact hc

/-- Closing keeps every bound, whatever the size of the cells. -/
theorem refines_of_close? (h : m.close? = some k) : k.Refines m := by
  obtain ⟨-, -, hloop, rfl⟩ := close?_eq_some.mp h
  exact (zeroDiagonal_refines hloop).trans
    ((refines_strengthen _).trans ((refines_tighten _).trans (refines_shortestPaths m)))

end Lifespan.Matrix
