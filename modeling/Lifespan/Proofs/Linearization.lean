import Lifespan.Proofs.ConstantFolding
import Lifespan.Proofs.FinMap

namespace Lifespan

namespace FinMap

variable {κ ν : Type} [Ord κ]

/-- The entries whose values pass a test. -/
def retain (p : ν → Bool) (m : FinMap κ ν) : FinMap κ ν :=
  ⟨m.entries.filter fun e => p e.2, m.sorted.filter _⟩

theorem get?_retain [Std.LawfulEqOrd κ] (p : ν → Bool) (m : FinMap κ ν) (k : κ) :
    (m.retain p).get? k = (m.get? k).filter p := by
  ext a
  rw [get?_eq_some, Option.filter_eq_some_iff, get?_eq_some, retain, List.mem_filter]

end FinMap

/-- A linear form by the variables that occur in it. -/
structure Sparse (n : Nat) where
  coeffs : FinMap (Fin n) Int
  constant : Int

namespace Sparse

variable {n : Nat}

def coeff (c : FinMap (Fin n) Int) (x : Fin n) : Int := (c.get? x).getD 0

def ofConst (c : Int) : Sparse n := ⟨.empty, c⟩

def ofVar (x : Fin n) : Sparse n := ⟨.singleton x 1, 0⟩

/-- Replaces the coefficient of each variable of a list by what `op` makes of it and the number
beside it. -/
def updateAll (op : Int → Int → Option Int) (l : List (Fin n × Int)) (c : FinMap (Fin n) Int) :
    Option (FinMap (Fin n) Int) :=
  l.foldlM (fun c s => do return c.insert s.1 (← op (coeff c s.1) s.2)) c

/-- Does `op` to the coefficients of `f` at each summand of `g`, and to the constants. -/
def update (op : Int → Int → Option Int) (f g : Sparse n) : Option (Sparse n) := do
  let coeffs ← updateAll op g.coeffs.entries f.coeffs
  let constant ← op f.constant g.constant
  return ⟨coeffs.retain (· ≠ 0), constant⟩

/-- `a + b * k`, if both steps fit. -/
def addMultiple? (k a b : Int) : Option Int :=
  do signed? int128Limit (a + (← signed? int128Limit (b * k)))

/-- `f + k * g`. -/
def combine (f : Sparse n) (k : Int) (g : Sparse n) : Option (Sparse n) :=
  update (addMultiple? k) f g

/-- `k * f`. -/
def scale (k : Int) (f : Sparse n) : Option (Sparse n) :=
  update (fun _ a => signed? int128Limit (a * k)) f f

def product (f g : Sparse n) : Option (Sparse n) :=
  if f.coeffs.entries.isEmpty then g.scale f.constant
  else if g.coeffs.entries.isEmpty then f.scale g.constant
  else none

/-- Does `op` to two forms. Both are read before it is looked at whether they are there. -/
def both (op : Sparse n → Sparse n → Option (Sparse n))
    (left right : Except Error (Option (Sparse n))) :
    Except Error (Option (Sparse n)) := do
  let f ← left
  let g ← right
  return do op (← f) (← g)

/-- The value at a valuation. -/
def value (f : Sparse n) (v : Fin n → Int) : Int := Linear.sumValue v f.coeffs.entries + f.constant

end Sparse

namespace Environment

/-- The linear form of a term over named variables, none if it has none. -/
def linearize (env : Environment) : Term String → Except Error (Option (Sparse env.size))
  | .const c => return some (.ofConst c)
  | .var x => return some (.ofVar (← env.index x))
  | .add l r => Sparse.both (·.combine 1 ·) (env.linearize l) (env.linearize r)
  | .sub l r => Sparse.both (·.combine (-1) ·) (env.linearize l) (env.linearize r)
  | .mul l r => Sparse.both Sparse.product (env.linearize l) (env.linearize r)

/-- Interval arithmetic on a term over named variables. -/
def intervalOf (env : Environment) (m : Matrix env.size) :
    Term String → Except Error (Traced Interval)
  | .const c => return pure (.point c)
  | .var x => return pure (m.interval (← env.index x))
  | .add l r => do
    let left ← env.intervalOf m l
    let right ← env.intervalOf m r
    return (do return (← left).add (← right))
  | .sub l r => do
    let left ← env.intervalOf m l
    let right ← env.intervalOf m r
    return (do return (← left).add (← (← right).negTraced))
  | .mul l r => do
    let left ← env.intervalOf m l
    let right ← env.intervalOf m r
    return (do return (← left).mul (← right))

end Environment

namespace Sparse

variable {n : Nat} {op : Int → Int → Option Int} {c d : FinMap (Fin n) Int}
    {l : List (Fin n × Int)} {x y : Fin n}
  {a b k : Int}

theorem coeff_insert_self (c : FinMap (Fin n) Int) (x : Fin n) (a : Int) :
    coeff (c.insert x a) x = a := by
  rw [coeff, FinMap.get?_insert_self, Option.getD_some]

theorem coeff_insert_of_ne (c : FinMap (Fin n) Int) (a : Int) (h : y ≠ x) :
    coeff (c.insert x a) y = coeff c y := by
  rw [coeff, FinMap.get?_insert_of_ne c a (Std.LawfulEqCmp.compare_eq_iff_eq.not.mpr h), coeff]

theorem updateAll_cons (op : Int → Int → Option Int) (s : Fin n × Int) (l : List (Fin n × Int))
    (c : FinMap (Fin n) Int) :
    updateAll op (s :: l) c = (op (coeff c s.1) s.2).bind fun a =>
    updateAll op l (c.insert s.1 a) := by
  rw [updateAll, List.foldlM_cons]
  cases op (coeff c s.1) s.2 <;> rfl

/-- Variables are met once, so each of them is changed from the coefficient it had at first. -/
theorem coeff_of_updateAll (hl : (l.map Prod.fst).Nodup) (h : updateAll op l c = some d) :
    (∀ s ∈ l, op (coeff c s.1) s.2 = some (coeff d s.1)) ∧ ∀ y ∉ l.map Prod.fst,
    coeff d y = coeff c y := by
  induction l generalizing c with
  | nil =>
    obtain rfl := Option.some.inj h
    exact ⟨by simp, fun _ _ => rfl⟩
  | cons s l ih =>
    obtain ⟨hs, hl⟩ := List.nodup_cons.mp hl
    rw [updateAll_cons] at h
    obtain ⟨a, ha, h⟩ := Option.bind_eq_some_iff.mp h
    -- The rest does not meet the variable of `s` again, so its new coefficient stays.
    obtain ⟨hmem, hout⟩ := ih hl h
    refine ⟨fun t ht => ?_, fun y hy => ?_⟩
    · rcases List.mem_cons.mp ht with rfl | ht
      · rw [hout _ hs, coeff_insert_self, ha]
      · have hne : t.1 ≠ s.1 := fun heq => hs (heq ▸ List.mem_map_of_mem ht)
        rw [← hmem t ht, coeff_insert_of_ne c a hne]
    · obtain ⟨hne, hy⟩ := not_or.mp (List.mem_cons.not.mp hy)
      rw [hout y hy, coeff_insert_of_ne c a hne]

theorem exists_updateAll (hl : (l.map Prod.fst).Nodup)
    (h : ∀ s ∈ l, ∃ a, op (coeff c s.1) s.2 = some a) :
    ∃ d, updateAll op l c = some d := by
  induction l generalizing c with
  | nil => exact ⟨c, rfl⟩
  | cons s l ih =>
    obtain ⟨hs, hl⟩ := List.nodup_cons.mp hl
    obtain ⟨a, ha⟩ := h s List.mem_cons_self
    have hrest : ∀ t ∈ l, ∃ b, op (coeff (c.insert s.1 a) t.1) t.2 = some b := by
      intro t ht
      have hne : t.1 ≠ s.1 := fun heq => hs (heq ▸ List.mem_map_of_mem ht)
      rw [coeff_insert_of_ne c a hne]
      exact h t (List.mem_cons_of_mem s ht)
    rw [updateAll_cons, ha]
    exact ih hl hrest

theorem get?_retain_ne_zero (c : FinMap (Fin n) Int) (x : Fin n) :
    (c.retain (· ≠ 0)).get? x = if coeff c x = 0 then none else some (coeff c x) := by
  rw [FinMap.get?_retain, coeff]
  cases c.get? x with
  | none => rfl
  | some a => by_cases ha : a = 0 <;> simp [Option.filter, ha]

theorem addMultiple?_eq_some_iff {e : Int} :
    addMultiple? k a b = some e ↔ FitsIn int128Limit (b * k) ∧ FitsIn int128Limit (a + b * k) ∧
    a + b * k = e := by
  simp only [addMultiple?, Option.bind_eq_bind, Option.bind_eq_some_iff, signed?_eq_some_iff]
  constructor
  · rintro ⟨_, ⟨hb, rfl⟩, hsum⟩
    exact ⟨hb, hsum⟩
  · rintro ⟨hb, hsum⟩
    exact ⟨b * k, ⟨hb, rfl⟩, hsum⟩

end Sparse

namespace Linear

variable {n : Nat} {f g h h' : Linear n} {x : Fin n} {k : Int}

theorem fits_iff {a : Int} : fits a = true ↔ FitsIn int128Limit a := by
  refine ⟨fun h => ?_, fits_of_fitsIn⟩
  obtain ⟨b, hb⟩ := Option.isSome_iff_exists.mp h
  exact (signed?_eq_some_iff.mp hb).1

theorem sorted_summands (f : Linear n) : f.summands.Pairwise fun a b => compare a.1 b.1 = .lt := by
  apply List.pairwise_filterMap.mpr
  apply (List.pairwise_lt_finRange n).imp
  intro x y hxy a ha b hb
  obtain rfl : x = a.1 := by grind
  obtain rfl : y = b.1 := by grind
  exact compare_lt_iff_lt.mpr hxy

/-- The coefficients that are not zero. -/
def support (f : Linear n) : FinMap (Fin n) Int := ⟨f.summands, f.sorted_summands⟩

def sparse (f : Linear n) : Sparse n := ⟨f.support, f.constant⟩

theorem get?_support (f : Linear n) (x : Fin n) :
    f.support.get? x = if f.coeffs.get x = 0 then none else some (f.coeffs.get x) := by
  ext a
  rw [FinMap.get?_eq_some]
  change (x, a) ∈ f.summands ↔ _
  rw [mem_summands]
  split <;> grind

theorem coeff_support (f : Linear n) (x : Fin n) : Sparse.coeff f.support x = f.coeffs.get x := by
  rw [Sparse.coeff, get?_support]
  split
  case isTrue hx =>
    rw [hx]
    rfl
  case isFalse => rfl

/-- Without zeros, coefficients are known from what they are at each variable. -/
theorem retain_eq_support {c : FinMap (Fin n) Int} (hc : ∀ x, Sparse.coeff c x = f.coeffs.get x) :
    c.retain (· ≠ 0) = f.support := by
  apply FinMap.ext_get?
  intro x
  rw [Sparse.get?_retain_ne_zero, get?_support, hc x]

theorem eq_iff : f = g ↔ (∀ x, f.coeffs.get x = g.coeffs.get x) ∧ f.constant = g.constant := by
  refine ⟨fun h => h ▸ ⟨fun _ => rfl, rfl⟩, fun ⟨hcoeffs, hconstant⟩ => ?_⟩
  obtain ⟨c, a⟩ := f
  obtain ⟨d, b⟩ := g
  obtain rfl : c = d := Vector.ext_get hcoeffs
  obtain rfl : a = b := hconstant
  rfl

theorem combine_eq_some_iff : f.combine k g = some h ↔
    (∀ x, Sparse.addMultiple? k (f.coeffs.get x) (g.coeffs.get x) = some (h.coeffs.get x)) ∧
      Sparse.addMultiple? k f.constant g.constant = some h.constant := by
  simp only [combine, Option.ite_none_right_eq_some, Bool.and_eq_true, List.all_eq_true,
    List.mem_finRange, forall_const, fits_iff, Option.some.injEq, eq_iff, Vector.get_ofFn,
      Sparse.addMultiple?_eq_some_iff, forall_and]
  tauto

theorem scale_eq_some_iff : f.scale k = some h ↔
    (∀ x, signed? int128Limit (f.coeffs.get x * k) = some (h.coeffs.get x)) ∧
      signed? int128Limit (f.constant * k) = some h.constant := by
  simp only [scale, Option.ite_none_right_eq_some, Bool.and_eq_true, List.all_eq_true,
    List.mem_finRange, forall_const, fits_iff, Option.some.injEq, eq_iff, Vector.get_map,
      signed?_eq_some_iff, forall_and]
  tauto

section Update

variable {op : Int → Int → Option Int}
  (hzero : ∀ x, g.coeffs.get x = 0 → op (f.coeffs.get x) 0 = some (f.coeffs.get x))

include hzero

theorem coeff_of_updateAll_support {d : FinMap (Fin n) Int}
    (hd : Sparse.updateAll op g.summands f.support = some d) (x : Fin n) :
    op (f.coeffs.get x) (g.coeffs.get x) = some (Sparse.coeff d x) := by
  obtain ⟨hmem, hout⟩ := Sparse.coeff_of_updateAll g.nodup_summands hd
  by_cases hx : g.coeffs.get x = 0
  · have hnot : x ∉ g.summands.map Prod.fst := by simp [map_fst_summands, hx]
    rw [hout x hnot, coeff_support, hx, hzero x hx]
  · have hop := hmem (x, g.coeffs.get x) (mem_summands.mpr ⟨rfl, hx⟩)
    rwa [coeff_support] at hop

/-- An operation in place, if it leaves alone what it does not meet, is the same operation at
all variables. -/
theorem update_sparse {result : Option (Linear n)}
    (hresult : ∀ h, result = some h ↔
      (∀ x, op (f.coeffs.get x) (g.coeffs.get x) = some (h.coeffs.get x)) ∧
      op f.constant g.constant = some h.constant) :
    Sparse.update op f.sparse g.sparse = result.map sparse := by
  cases hr : result with
  | some h =>
    obtain ⟨hcoeffs, hconstant⟩ := (hresult h).mp hr
    have hdefined : ∀ s ∈ g.summands, ∃ a, op (Sparse.coeff f.support s.1) s.2 = some a := by
      intro s hs
      rw [coeff_support, ← coeff_of_mem_summands hs]
      exact ⟨_, hcoeffs s.1⟩
    obtain ⟨d, hd⟩ := Sparse.exists_updateAll g.nodup_summands hdefined
    have hsame : ∀ x, Sparse.coeff d x = h.coeffs.get x := by
      intro x
      apply Option.some.inj
      rw [← coeff_of_updateAll_support hzero hd x, hcoeffs x]
    change (Sparse.updateAll op g.summands f.support >>= fun _ => op f.constant g.constant >>= _) =
      _
    rw [hd, hconstant]
    exact congrArg (fun c => some (Sparse.mk c h.constant)) (retain_eq_support hsame)
  | none =>
    -- Had the fold come to an end, its coefficients would make up a result.
    apply Option.eq_none_iff_forall_ne_some.mpr
    intro s hs
    obtain ⟨d, hd, hs⟩ := Option.bind_eq_some_iff.mp hs
    obtain ⟨c, hc, -⟩ := Option.bind_eq_some_iff.mp hs
    have hcoeffs : ∀ x, op (f.coeffs.get x) (g.coeffs.get x) =
        some ((Vector.ofFn (Sparse.coeff d)).get x) := by
      intro x
      rw [Vector.get_ofFn]
      exact coeff_of_updateAll_support hzero hd x
    rw [(hresult ⟨_, c⟩).mpr ⟨hcoeffs, hc⟩] at hr
    cases hr

end Update

theorem combine_sparse (hf : ∀ x, FitsIn int128Limit (f.coeffs.get x)) (k : Int) (g : Linear n) :
    f.sparse.combine k g.sparse = (f.combine k g).map sparse := by
  apply update_sparse _ fun _ => combine_eq_some_iff
  intro x _
  rw [Sparse.addMultiple?_eq_some_iff, zero_mul, add_zero]
  exact ⟨by decide, hf x, rfl⟩

theorem scale_sparse (k : Int) (f : Linear n) : f.sparse.scale k = (f.scale k).map sparse := by
  apply update_sparse _ fun _ => scale_eq_some_iff
  intro x hx
  rw [hx, zero_mul]
  rfl

theorem product_sparse (f g : Linear n) : f.sparse.product g.sparse = (f.product g).map sparse := by
  change (if f.isConstant then g.sparse.scale f.constant
    else if g.isConstant then f.sparse.scale g.constant else none) = _
  unfold product
  split
  · exact scale_sparse _ _
  · split
    · exact scale_sparse _ _
    · rfl

theorem ofConst_sparse (c : Int) : (ofConst c : Linear n).sparse = .ofConst c := by
  have hcoeffs : (ofConst c : Linear n).support = .empty := by
    apply FinMap.ext_get?
    intro x
    rw [get?_support, if_pos (by simp [ofConst])]
    rfl
  exact congrArg (fun m => Sparse.mk m c) hcoeffs

theorem ofVar_sparse (x : Fin n) : (ofVar x).sparse = .ofVar x := by
  have hcoeffs : (ofVar x).support = .singleton x 1 := by
    apply FinMap.ext_get?
    intro y
    rw [get?_support, FinMap.singleton]
    by_cases hy : y = x
    · subst hy
      rw [FinMap.get?_insert_self]
      simp [ofVar]
    · rw [FinMap.get?_insert_of_ne _ _ (Std.LawfulEqCmp.compare_eq_iff_eq.not.mpr hy),
        if_pos (by simp [ofVar, hy])]
      rfl
  exact congrArg (fun m => Sparse.mk m 0) hcoeffs

theorem value_sparse (f : Linear n) (v : Fin n → Int) : f.sparse.value v = f.eval v :=
  (eval_eq_sumValue v f).symm

theorem fitsIn_of_combine (h : f.combine k g = some h') (x : Fin n) :
    FitsIn int128Limit (h'.coeffs.get x) := by
  obtain ⟨-, hfits, heq⟩ := Sparse.addMultiple?_eq_some_iff.mp ((combine_eq_some_iff.mp h).1 x)
  exact heq ▸ hfits

theorem fitsIn_of_scale (h : f.scale k = some h') (x : Fin n) :
    FitsIn int128Limit (h'.coeffs.get x) := by
  obtain ⟨hfits, heq⟩ := signed?_eq_some_iff.mp ((scale_eq_some_iff.mp h).1 x)
  exact heq ▸ hfits

theorem fitsIn_of_product (h : f.product g = some h') (x : Fin n) :
    FitsIn int128Limit (h'.coeffs.get x) := by
  unfold product at h
  split at h
  · exact fitsIn_of_scale h x
  · split at h
    · exact fitsIn_of_scale h x
    · cases h

end Linear

/-- The coefficients of a term's form are 128-bit integers. -/
theorem Term.fitsIn_linear? {n : Nat} {t : Term (Fin n)} {f : Linear n}
    (h : t.linear? = some f) (x : Fin n) :
    FitsIn int128Limit (f.coeffs.get x) := by
  cases t with
  | const c =>
    obtain rfl := Option.some.inj h
    have hzero : (Linear.ofConst c : Linear n).coeffs.get x = 0 := by simp [Linear.ofConst]
    rw [hzero]
    decide
  | var y =>
    obtain rfl := Option.some.inj h
    have hcoeff : (Linear.ofVar y).coeffs.get x = if x = y then 1 else 0 := by simp [Linear.ofVar]
    rw [hcoeff]
    split <;> decide
  | add l r | sub l r =>
    simp only [linear?, Option.bind_eq_bind, Option.bind_eq_some_iff] at h
    obtain ⟨_, -, _, -, h⟩ := h
    exact Linear.fitsIn_of_combine h x
  | mul l r =>
    simp only [linear?, Option.bind_eq_bind, Option.bind_eq_some_iff] at h
    obtain ⟨_, -, _, -, h⟩ := h
    exact Linear.fitsIn_of_product h x

namespace Environment

variable {env : Environment}

theorem both_sparse {n : Nat} {op : Sparse n → Sparse n → Option (Sparse n)}
    {dense : Linear n → Linear n → Option (Linear n)}
    (mk : Term (Fin n) → Term (Fin n) → Term (Fin n))
    (hmk : ∀ t u, (mk t u).linear? = do dense (← t.linear?) (← u.linear?))
    (hop : ∀ t f g, Term.linear? t = some f → op f.sparse g.sparse = (dense f g).map Linear.sparse)
    (l r : Except Error (Term (Fin n))) :
    Sparse.both op (do return ((← l).linear?).map Linear.sparse)
    (do return ((← r).linear?).map Linear.sparse) =
      (do return mk (← l) (← r)) >>= fun t => return t.linear?.map Linear.sparse := by
  cases l with
  | error e => rfl
  | ok t =>
    cases r with
    | error e => rfl
    | ok u =>
      change Except.ok (do op (← t.linear?.map Linear.sparse) (← u.linear?.map Linear.sparse)) =
        .ok ((mk t u).linear?.map Linear.sparse)
      rw [hmk]
      cases hf : t.linear? with
      | none => rfl
      | some f =>
        cases u.linear? with
        | none => rfl
        | some g => exact congrArg Except.ok (hop t f g hf)

theorem linearize_eq (t : Term String) :
    env.linearize t = do return ((← t.resolve env.index).linear?).map Linear.sparse := by
  induction t with
  | const c =>
    change Except.ok (some (Sparse.ofConst c)) = .ok (some (Linear.ofConst c).sparse)
    rw [Linear.ofConst_sparse]
  | var x =>
    rw [linearize, Term.resolve]
    cases env.index x with
    | error e => rfl
    | ok i =>
      change Except.ok (some (Sparse.ofVar i)) = .ok (some (Linear.ofVar i).sparse)
      rw [Linear.ofVar_sparse]
  | add l r ihl ihr =>
    rw [linearize, ihl, ihr]
    exact both_sparse .add (fun _ _ => rfl)
      (fun _ _ g hf => Linear.combine_sparse (Term.fitsIn_linear? hf) 1 g) _ _
  | sub l r ihl ihr =>
    rw [linearize, ihl, ihr]
    exact both_sparse .sub (fun _ _ => rfl)
      (fun _ _ g hf => Linear.combine_sparse (Term.fitsIn_linear? hf) (-1) g) _ _
  | mul l r ihl ihr =>
    rw [linearize, ihl, ihr]
    exact both_sparse .mul (fun _ _ => rfl) (fun _ f g _ => Linear.product_sparse f g) _ _

theorem intervalOf_eq (m : Matrix env.size) (t : Term String) :
    env.intervalOf m t = do return m.termRangeTraced (← t.resolve env.index) := by
  induction t with
  | const c => rfl
  | var x =>
    rw [intervalOf, Term.resolve]
    cases env.index x <;> rfl
  | add l r ihl ihr | sub l r ihl ihr | mul l r ihl ihr =>
    rw [intervalOf, ihl, ihr, Term.resolve]
    cases l.resolve env.index with
    | error e => rfl
    | ok l' => cases r.resolve env.index <;> rfl

/-- What is read from a resolved term fails exactly if a variable is not there, wherever that is. -/
theorem resolve_bind_fails_iff {α : Type} (read : Term (Fin env.size) → α) (t : Term String) :
    (∃ e, (do return read (← t.resolve env.index)) = Except.error e) ↔
    ∃ x ∈ t.vars, x ∉ env.vars := by
  constructor
  · rintro ⟨e, he⟩
    rcases Except.bind_eq_error.mp he with he | ⟨u, -, he⟩
    · obtain ⟨x, hx, hout, -⟩ := resolve_eq_error he
      exact ⟨x, hx, hout⟩
    · cases he
  · rintro ⟨x, hx, hout⟩
    cases ht : t.resolve env.index with
    | error e => exact ⟨e, rfl⟩
    | ok u => exact absurd (mem_of_resolve ht hx) hout

theorem exists_linear?_of_linearize {t : Term String} {f : Sparse env.size}
    (h : env.linearize t = .ok (some f)) :
    ∃ u g, t.resolve env.index = .ok u ∧ u.linear? = some g ∧ g.sparse = f := by
  rw [linearize_eq] at h
  obtain ⟨u, hu, h⟩ := Except.bind_eq_ok.mp h
  obtain ⟨g, hg, hf⟩ := Option.map_eq_some_iff.mp (Except.pure_eq_ok.mp h)
  exact ⟨u, g, hu, hg, hf⟩

theorem value_of_linearize {t : Term String} {f : Sparse env.size}
    (h : env.linearize t = .ok (some f)) (v : String → Int) : f.value (env.point v) = t.eval v := by
  obtain ⟨u, g, hu, hg, rfl⟩ := exists_linear?_of_linearize h
  rw [Linear.value_sparse, Term.eval_linear? _ hg, eval_resolve hu]

theorem contains_of_intervalOf {m : Matrix env.size} {t : Term String} {run : Traced Interval}
    {v : String → Int} (hv : m.Point (env.point v)) (h : env.intervalOf m t = .ok run) :
    run.value.Contains (t.eval v) := by
  rw [intervalOf_eq] at h
  obtain ⟨u, hu, h⟩ := Except.bind_eq_ok.mp h
  obtain rfl := Except.pure_eq_ok.mp h
  rw [← eval_resolve hu v, Matrix.value_termRangeTraced]
  exact hv.termRange u

/-- Only the negation of an end can overflow. -/
theorem negation_of_mem_operations {m : Matrix env.size} {t : Term String} {run : Traced Interval}
    (h : env.intervalOf m t = .ok run) {o : Operation} (ho : o ∈ run.operations) :
    ∃ a, o = .negation a := by
  rw [intervalOf_eq] at h
  obtain ⟨u, -, h⟩ := Except.bind_eq_ok.mp h
  obtain rfl := Except.pure_eq_ok.mp h
  exact Matrix.negation_of_mem_termRangeTraced ho

/-- `u * u - k`, where `k` is the least integer. -/
def negatedLowest : Term String := .sub (.mul (.var "u") (.var "u")) .lowest

end Environment

end Lifespan
