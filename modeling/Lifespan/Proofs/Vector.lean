namespace Lifespan.Vector

variable {α β γ : Type} {n : Nat}

theorem get_eq_getElem (xs : Vector α n) (i : Fin n) : xs.get i = xs[i.val] := rfl

@[simp] theorem get_ofFn (f : Fin n → α) (i : Fin n) : (Vector.ofFn f).get i = f i := by
  simp [get_eq_getElem]

@[simp] theorem get_replicate (a : α) (i : Fin n) : (Vector.replicate n a).get i = a := by
  simp [get_eq_getElem]

theorem get_set (xs : Vector α n) (i j : Fin n) (a : α) :
    (xs.set i a i.isLt).get j = if i = j then a else xs.get j := by
  simp [get_eq_getElem, Vector.getElem_set, Fin.ext_iff]

@[simp] theorem get_set_self (xs : Vector α n) (i : Fin n) (a : α) :
    (xs.set i a i.isLt).get i = a := by
  simp [get_set]

theorem get_set_of_ne (xs : Vector α n) {i j : Fin n} (a : α) (h : j ≠ i) :
    (xs.set i a i.isLt).get j = xs.get j := by
  rw [get_set, if_neg h.symm]

@[simp] theorem get_map (f : α → β) (xs : Vector α n) (i : Fin n) :
    (xs.map f).get i = f (xs.get i) := by
  simp [get_eq_getElem]

@[simp] theorem get_zipWith (f : α → β → γ) (xs : Vector α n) (ys : Vector β n) (i : Fin n) :
    (Vector.zipWith f xs ys).get i = f (xs.get i) (ys.get i) := by
  simp [get_eq_getElem]

theorem ext_get {xs ys : Vector α n} (h : ∀ i, xs.get i = ys.get i) : xs = ys := by
  apply Vector.ext
  intro i hi
  exact h ⟨i, hi⟩

end Lifespan.Vector
