import Lifespan.Traced
import Mathlib.Algebra.Order.Ring.Abs

namespace Lifespan

/-- A signed integer below the limit of its width. -/
def FitsIn (limit v : Int) : Prop := -limit ≤ v ∧ v < limit

instance (limit v : Int) : Decidable (FitsIn limit v) := inferInstanceAs (Decidable (_ ∧ _))

theorem FitsIn.wide {v : Int} (h : FitsIn int64Limit v) : FitsIn int128Limit v := by
  have hwide : int64Limit < int128Limit := by decide
  obtain ⟨hlow, hhigh⟩ := h
  constructor <;> omega

theorem signed?_of_fitsIn {limit v : Int} (h : FitsIn limit v) : signed? limit v = some v :=
  if_pos h

theorem signed?_eq_some_iff {limit a b : Int} : signed? limit a = some b ↔
    FitsIn limit a ∧ a = b := by
  rw [signed?, Option.ite_none_right_eq_some, Option.some.injEq]
  rfl

theorem fitsIn_of_abs_lt {x : Int} (h : |x| < int128Limit) : FitsIn int128Limit x := by
  have hlow := neg_abs_le x
  have hhigh := le_abs_self x
  constructor <;> omega

theorem wrap_of_fitsIn {v : Int} (h : FitsIn int128Limit v) : wrap v = v := by
  obtain ⟨hlow, hhigh⟩ := h
  rw [wrap, Int.emod_eq_of_lt (by omega) (by omega)]
  omega

namespace Traced

variable {α β : Type} {L : Int} {x : Traced α} {f : α → Traced β} {a : α}

instance : LawfulMonad Traced := by
  refine LawfulMonad.mk' Traced ?_ (fun _ _ => rfl) ?_
  · intro α x
    induction x with
    | done a => rfl
    | step o next ih => exact congrArg (step o) (funext ih)
  · intro α β γ x f g
    induction x with
    | done a => rfl
    | step o next ih => exact congrArg (step o) (funext ih)

@[simp] theorem value_pure (a : α) : (pure a : Traced α).value = a := rfl

@[simp] theorem value_perform (o : Operation) : (perform o).value = o.result := rfl

@[simp] theorem operations_pure (a : α) : (pure a : Traced α).operations = [] := rfl

theorem value_bind_operations_bind (x : Traced α) (f : α → Traced β) :
    (x >>= f).value = (f x.value).value ∧
    (x >>= f).operations = x.operations ++ (f x.value).operations := by
  induction x with
  | done a => exact ⟨rfl, rfl⟩
  | step o next ih => exact ⟨(ih o.result).1, congrArg (o :: ·) (ih o.result).2⟩

@[simp] theorem value_bind (x : Traced α) (f : α → Traced β) :
    (x >>= f).value = (f x.value).value :=
  (value_bind_operations_bind x f).1

@[simp] theorem operations_bind (x : Traced α) (f : α → Traced β) :
    (x >>= f).operations = x.operations ++ (f x.value).operations :=
  (value_bind_operations_bind x f).2

@[simp] theorem value_map (g : α → β) (x : Traced α) : (g <$> x).value = g x.value :=
  value_bind x _

theorem value_ite (p : Prop) [Decidable p] (x y : Traced α) :
    (if p then x else y).value = if p then x.value else y.value := apply_ite _ _ _ _

@[simp] theorem value_negated (v : Option Int) : (negated v).value = v.map (-·) := by
  cases v <;> rfl

theorem value_foldlM (step : β → α → Traced β) (l : List α) (b : β) :
    (l.foldlM step b).value = l.foldl (fun b a => (step b a).value) b := by
  induction l generalizing b with
  | nil => rfl
  | cons a l ih => rw [List.foldlM_cons, value_bind, ih, List.foldl_cons]

theorem value_mapM (f : α → Traced β) (l : List α) :
    (l.mapM f).value = l.map fun a => (f a).value := by
  induction l with
  | nil => rfl
  | cons a l ih => rw [List.mapM_cons, value_bind, value_bind, ih, value_pure, List.map_cons]

theorem value_ofFn {n : Nat} (f : Fin n → Traced α) :
    (ofFn f).value = Vector.ofFn fun i => (f i).value := by
  induction n with
  | zero => exact Vector.ext fun i hi => absurd hi (Nat.not_lt_zero i)
  | succ n ih =>
    rw [ofFn, value_bind, value_bind, ih, value_pure, Vector.ofFn_succ]
    rfl

/-- No operation on the way overflows 128 bits. -/
def InRange (x : Traced α) : Prop := ∀ o ∈ x.operations, FitsIn int128Limit o.result

instance (x : Traced α) : Decidable x.InRange := inferInstanceAs (Decidable (∀ o ∈ _, _))

theorem inRange_pure (a : α) : (pure a : Traced α).InRange := by
  intro o ho
  cases ho

theorem inRange_perform {o : Operation} :
    (perform o).InRange ↔ FitsIn int128Limit o.result := by
  rw [InRange, perform, operations, operations, List.forall_mem_singleton]

theorem inRange_bind : (x >>= f).InRange ↔ x.InRange ∧ (f x.value).InRange := by
  rw [InRange, operations_bind, List.forall_mem_append]
  rfl

theorem inRange_map {g : α → β} : (g <$> x).InRange ↔ x.InRange :=
  inRange_bind.trans (and_iff_left (inRange_pure _))

/-- A checked computation gives its value, unless it stops at an overflow. -/
theorem checked?_eq_some_iff : x.checked? = some a ↔ x.InRange ∧ x.value = a := by
  induction x with
  | done b => simp [checked?, value, InRange, operations]
  | step o next ih =>
    simp only [checked?, Option.bind_eq_some_iff, signed?_eq_some_iff, InRange, operations,
      List.forall_mem_cons, value]
    constructor
    · rintro ⟨v, ⟨hfits, rfl⟩, h⟩
      exact ⟨⟨hfits, ((ih _).mp h).1⟩, ((ih _).mp h).2⟩
    · rintro ⟨⟨hfits, hrest⟩, hvalue⟩
      exact ⟨o.result, ⟨hfits, rfl⟩, (ih _).mpr ⟨hrest, hvalue⟩⟩

theorem InRange.checked? (h : x.InRange) : x.checked? = some x.value :=
  checked?_eq_some_iff.mpr ⟨h, rfl⟩

/-- Without an overflow nothing is wrapped. -/
theorem InRange.wrapped (h : x.InRange) : x.wrapped = x.value := by
  induction x with
  | done a => rfl
  | step o next ih =>
    obtain ⟨hfits, hrest⟩ := List.forall_mem_cons.mp h
    rw [Traced.wrapped, wrap_of_fitsIn hfits]
    exact ih _ hrest

/-- What comes out both where overflows stop a computation and where they go unnoticed. -/
structure Gives (x : Traced α) (a : α) : Prop where
  checked? : x.checked? = some a
  wrapped : x.wrapped = a

theorem InRange.gives (h : x.InRange) : x.Gives x.value := ⟨h.checked?, h.wrapped⟩

/-- No operation on the way has a result larger than `L`. -/
def Within (x : Traced α) (L : Int) : Prop := ∀ o ∈ x.operations, |o.result| ≤ L

theorem within_pure (a : α) : (pure a : Traced α).Within L := by
  intro o ho
  cases ho

theorem Within.bind (hx : x.Within L) (hf : (f x.value).Within L) : (x >>= f).Within L := by
  intro o ho
  rw [operations_bind] at ho
  exact (List.mem_append.mp ho).elim (hx o) (hf o)

theorem within_perform (o : Operation) (h : |o.result| ≤ L) : (perform o).Within L := by
  intro p hp
  rwa [List.mem_singleton.mp hp]

theorem Within.inRange (h : x.Within L) (hL : L < int128Limit) : x.InRange :=
  fun o ho => fitsIn_of_abs_lt ((h o ho).trans_lt hL)

/-- What each step keeps and what keeps each step in range holds along a loop. -/
theorem within_foldlM {P : β → Prop} {step : β → α → Traced β}
    (hstep : ∀ b a, P b → (step b a).Within L ∧ P (step b a).value) (l : List α)
    {b : β} (hb : P b) :
    (l.foldlM step b).Within L ∧ P (l.foldlM step b).value := by
  induction l generalizing b with
  | nil => exact ⟨within_pure b, hb⟩
  | cons a l ih =>
    have hrest := ih (hstep b a hb).2
    rw [List.foldlM_cons, value_bind]
    exact ⟨(hstep b a hb).1.bind hrest.1, hrest.2⟩

end Traced

end Lifespan
