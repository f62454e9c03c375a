import Lifespan.Octagon.Closure
import Lifespan.Proofs.Vector

namespace Lifespan

namespace Literal

variable {n : Nat}

@[simp] theorem ofIndex_index (i : Literal n) : ofIndex i.index = i := by
  obtain ⟨⟨x, hx⟩, s⟩ := i
  cases s with
  | false => simp [ofIndex, index]
  | true =>
    have hhalf : (2 * x + 1) / 2 = x := by omega
    simp [ofIndex, index, hhalf]

@[simp] theorem index_ofIndex (k : Fin (2 * n)) : (ofIndex k).index = k := by
  apply Fin.ext
  simp only [index, ofIndex]
  rcases Nat.mod_two_eq_zero_or_one k.val with h | h <;> simp [h] <;> omega

theorem index_inj {i j : Literal n} : i.index = j.index ↔ i = j := by
  constructor
  · intro h
    rw [← ofIndex_index i, h, ofIndex_index]
  · rintro rfl
    rfl

theorem mem_all (i : Literal n) : i ∈ all n :=
  List.mem_map.mpr ⟨i.index, List.mem_finRange _, ofIndex_index i⟩

@[simp] theorem bar_bar (i : Literal n) : i.bar.bar = i := by
  simp [bar]

@[simp] theorem value_bar (v : Fin n → Int) (i : Literal n) : i.bar.value v = -i.value v := by
  obtain ⟨x, s⟩ := i
  cases s <;> simp [bar, value]

@[simp] theorem value_pos (v : Fin n → Int) (x : Fin n) : (pos x).value v = v x := rfl

@[simp] theorem value_neg (v : Fin n → Int) (x : Fin n) : (neg x).value v = -v x := rfl

theorem value_ofUnit {k : Int} (hk : k.natAbs = 1) (v : Fin n → Int) (x : Fin n) :
    (ofUnit k x).value v = k * v x := by
  rcases Int.natAbs_eq_iff.mp hk with rfl | rfl <;> simp [ofUnit, value]

end Literal

namespace Matrix

variable {n : Nat}

@[simp] theorem get_ofFn (f : Literal n → Literal n → Bound) (i j : Literal n) :
    (ofFn f).get i j = f i j := by
  simp [get, ofFn]

theorem get_set (m : Matrix n) (i j k l : Literal n) (b : Bound) :
    (m.set i j b).get k l = if i = k ∧ j = l then b else m.get k l := by
  simp only [get, set, Vector.get_set, Literal.index_inj]
  by_cases hi : i = k
  · subst hi
    by_cases hj : j = l <;> simp [hj, Vector.get_set, Literal.index_inj]
  · simp [hi]

@[simp] theorem get_join (a b : Matrix n) (i j : Literal n) :
    (a.join b).get i j = max (a.get i j) (b.get i j) := by
  simp [get, join]

@[simp] theorem get_widen (a b : Matrix n) (i j : Literal n) :
    (a.widen b).get i j = if b.get i j ≤ a.get i j then a.get i j else .absent := by
  rw [widen, get, Vector.get_zipWith, Vector.get_zipWith]
  rfl

theorem get_pivot (m : Matrix n) (k i j : Literal n) :
    (m.pivot k).get i j = match m.get i k with
      | .absent => m.get i j
      | .finite c => min (m.get i j) (.finite c + m.get k j) := by
  simp only [get, pivot, row, Vector.get_map]
  cases h : (m.rows.get i.index).get k.index <;> simp

theorem ext_get {a b : Matrix n} (h : ∀ i j, a.get i j = b.get i j) : a = b := by
  obtain ⟨a⟩ := a
  obtain ⟨b⟩ := b
  congr 1
  apply Vector.ext_get
  intro k
  apply Vector.ext_get
  intro l
  have hkl := h (.ofIndex k) (.ofIndex l)
  simpa [get] using hkl

end Matrix

end Lifespan
