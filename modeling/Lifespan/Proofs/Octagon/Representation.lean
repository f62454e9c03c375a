import Lifespan.Proofs.Octagon.Tight
import Lifespan.Proofs.Octagon.Transfer

namespace Lifespan

variable {n : Nat}

namespace Literal

variable {i j : Literal n}

@[simp] theorem var_bar (i : Literal n) : i.bar.var = i.var := rfl

theorem bar_eq_iff : i.bar = j ↔ i = j.bar := by
  constructor
  · rintro rfl
    exact (bar_bar i).symm
  · rintro rfl
    exact bar_bar j

@[simp] theorem bar_inj : i.bar = j.bar ↔ i = j := by
  rw [bar_eq_iff, bar_bar]

theorem bar_ne (i : Literal n) : i.bar ≠ i := fun h => by
  have hsign := congrArg negative h
  simp [bar] at hsign

end Literal

namespace Matrix

open Linear

variable {m k : Matrix n} {i j l : Literal n} {a b c d : Int} {x y : Fin n}

theorem regular_top (n : Nat) : (top n).Regular where
  coherent i j := by simp [top, eq_comm]
  diagonal i := by simp [top]

theorem get_refine (m : Matrix n) (i j k l : Literal n) (c : Int) : (m.refine i j c).get k l =
    if i = k ∧ j = l then min (m.get k l) (.ofInt c) else m.get k l := by
  rw [refine, get_set]
  split
  case isTrue h =>
    rw [h.1, h.2]
  case isFalse => rfl

theorem get_addSum (m : Matrix n) (i j k l : Literal n) (c : Int) : (m.addSum i j c).get k l =
    if (j.bar = k ∧ i = l) ∨ (i.bar = k ∧ j = l) then min (m.get k l) (.ofInt c)
    else m.get k l := by
  rw [addSum, get_refine, get_refine]
  by_cases hfirst : j.bar = k ∧ i = l <;> by_cases hsecond : i.bar = k ∧ j = l
  · -- the two cells are one, and the bound is added to it twice
    rw [if_pos hsecond, if_pos hfirst, if_pos (.inl hfirst)]
    apply Bound.eq_of_le_finite_iff
    intro e
    simp only [Bound.min_le_finite]
    tauto
  · rw [if_neg hsecond, if_pos hfirst, if_pos (.inl hfirst)]
  · rw [if_pos hsecond, if_neg hfirst, if_pos (.inr hsecond)]
  · rw [if_neg hsecond, if_neg hfirst, if_neg (not_or.mpr ⟨hfirst, hsecond⟩)]

namespace Regular

/-- A bound added to some cells off the diagonal and to their counterparts. -/
theorem of_cells (h : m.Regular) {cell : Literal n → Literal n → Prop} [∀ i j, Decidable (cell i j)]
    {b : Bound} (hget : ∀ i j, k.get i j = if cell i j then min (m.get i j) b else m.get i j)
    (hbar : ∀ i j, cell j.bar i.bar ↔ cell i j) (hself : ∀ i, ¬ cell i i) : k.Regular where
  coherent i j := by simp only [hget, hbar, h.coherent]
  diagonal i := by rw [hget, if_neg (hself i), h.diagonal]

theorem addSum (h : m.Regular) (hij : i.var ≠ j.var) (c : Int) : (m.addSum i j c).Regular := by
  apply h.of_cells (m.get_addSum i j · · c)
  · intro p q
    simp only [Literal.bar_eq_iff, Literal.bar_bar]
    tauto
  · rintro p (⟨rfl, rfl⟩ | ⟨rfl, rfl⟩)
    · exact hij rfl
    · exact hij rfl

theorem addUpper (h : m.Regular) (i : Literal n) (c : Int) : (m.addUpper i c).Regular := by
  apply h.of_cells (m.get_refine i.bar i · · (double c))
  · intro p q
    simp only [Literal.bar_eq_iff, Literal.bar_bar]
    tauto
  · rintro p ⟨rfl, hbar⟩
    exact Literal.bar_ne i hbar.symm

theorem addScaled (h : m.Regular) (x : Fin n) (k c : Int) : (m.addScaled x k c).Regular := by
  unfold Matrix.addScaled
  split
  · exact h.addUpper _ _
  · split
    · exact h.addUpper _ _
    · exact h

theorem addInterval (h : m.Regular) (x : Fin n) (a : Interval) : (m.addInterval x a).Regular := by
  obtain ⟨lo, hi⟩ := a
  cases lo <;> cases hi
  · exact h
  · exact h.addUpper _ _
  · exact h.addUpper _ _
  · exact (h.addUpper _ _).addUpper _ _

theorem forget (h : m.Regular) (x : Fin n) : (m.forget x).Regular where
  coherent i j := by
    simp only [Matrix.forget, get_ofFn, h.coherent, ne_eq, Literal.bar_inj, Literal.var_bar,
      eq_comm (a := j), or_comm (a := j.var = x)]
  diagonal i := by simp [Matrix.forget, h.diagonal]

theorem join (h : m.Regular) (hk : k.Regular) : (m.join k).Regular where
  coherent i j := by simp only [get_join, h.coherent, hk.coherent]
  diagonal i := by
    simp only [get_join, h.diagonal, hk.diagonal]
    rfl

theorem widen (h : m.Regular) (hk : k.Regular) : (m.widen k).Regular where
  coherent i j := by simp only [get_widen, h.coherent, hk.coherent]
  diagonal i := by simp [h.diagonal, hk.diagonal]

theorem addSpread (h : m.Regular) (l : List (Fin n × Int)) (c : Int) :
    (m.addSpread l c).Regular := by
  refine List.foldlRecOn (motive := Regular) l _ h ?_
  rintro m hm ⟨x, k⟩ -
  dsimp only
  split
  · exact hm.addScaled _ _ _
  · exact hm

theorem addNonneg (h : m.Regular) {f : Linear n} (hk : m.addNonneg f = some k) : k.Regular := by
  unfold Matrix.addNonneg at hk
  split at hk
  · cases hk
  · dsimp only at hk
    split at hk
    case h_1 x p y q _ hpair =>
      obtain ⟨hlist, -, -⟩ := unitPair?_eq_some hpair
      have hnodup : ((f.summands.map fun s => (s.1, -s.2)).map Prod.fst).Nodup := by
        rw [List.map_map]
        exact f.nodup_summands
      obtain rfl := Option.some.inj hk
      refine h.addSum ?_ _
      simpa [hlist, Literal.ofUnit] using hnodup
    · split at hk
      · obtain rfl := Option.some.inj hk
        exact h
      · cases hk
    · obtain rfl := Option.some.inj hk
      exact h.addScaled _ _ _
    · obtain rfl := Option.some.inj hk
      exact h.addSpread _ _

theorem addLinear (h : m.Regular) {f : Linear n} {r : Relation} (hk : m.addLinear f r = some k) :
    k.Regular := by
  cases r with
  | ge => exact h.addNonneg hk
  | gt => exact h.addNonneg hk
  | eq =>
    obtain ⟨m', hm', hk⟩ := Option.bind_eq_some_iff.mp hk
    exact (h.addNonneg hm').addNonneg hk
  | ne =>
    unfold Matrix.addLinear at hk
    dsimp only at hk
    split at hk
    · cases hk
    · split at hk
      · exact h.addNonneg hk
      · split at hk
        · exact h.addNonneg hk
        · obtain rfl := Option.some.inj hk
          exact h

theorem relate (h : m.Regular) (hxy : x ≠ y) (k : Int) (rest : Interval) :
    (m.relate x y k rest).Regular := by
  obtain ⟨lo, hi⟩ := rest
  cases lo <;> cases hi
  · exact h
  · exact h.addSum hxy _
  · exact h.addSum hxy _
  · exact (h.addSum hxy _).addSum hxy _

theorem assignLinear (h : m.Regular) (x : Fin n) (f : Linear n) : (m.assignLinear x f).Regular := by
  refine List.foldlRecOn (motive := Regular) _ _ ((h.forget x).addInterval x (m.range f)) ?_
  intro k hk s hs
  obtain ⟨⟨y, c⟩, hmem, rfl⟩ := List.mem_map.mp hs
  obtain ⟨hne, -⟩ := of_decide_eq_true (List.mem_filter.mp hmem).2
  exact hk.relate (Ne.symm hne) _ _

end Regular

theorem growth_bar (x : Fin n) (c : Int) (i : Literal n) : growth x c i.bar = -growth x c i := by
  obtain ⟨y, s⟩ := i
  by_cases hy : y = x <;> cases s <;> simp [growth, Literal.bar, hy]

theorem Regular.shift (h : m.Regular) (x : Fin n) (c : Int) : (m.shift x c).Regular where
  coherent i j := by
    have hgrowth : growth x c i.bar - growth x c j.bar = growth x c j - growth x c i := by
      rw [growth_bar, growth_bar]
      omega
    simp only [Matrix.shift, get_ofFn, h.coherent, hgrowth]
  diagonal i := by
    have hzero : growth x c i - growth x c i = 0 := by omega
    simp only [Matrix.shift, get_ofFn, h.diagonal, hzero]
    rfl

theorem get_shift_eq_finite : (m.shift x d).get i j = .finite c ↔
    m.get i j = .finite (c + growth x d i - growth x d j) ∧ c < Bound.limit := by
  rw [shift, get_ofFn]
  cases m.get i j with
  | absent => simp [Bound.shift]
  | finite p =>
    simp only [Bound.shift, Bound.ofInt, Bound.finite.injEq]
    constructor
    · split <;> simp only [Bound.finite.injEq, reduceCtorEq, false_imp_iff]
      omega
    · rintro ⟨rfl, hc⟩
      rw [if_pos (by omega), Bound.finite.injEq]
      omega

/-- A bound below the limit moves along. -/
theorem Bounds.shift (h : m.Bounds i j (c + growth x d i - growth x d j)) (hc : c < Bound.limit) :
    (m.shift x d).Bounds i j c := by
  obtain ⟨p, hp, hle⟩ := h.exists_get
  have hmoved : (m.shift x d).get i j = .finite (p + growth x d j - growth x d i) := by
    rw [get_shift_eq_finite, hp]
    exact ⟨congrArg _ (by omega), by omega⟩
  exact (bounds_of_get hmoved).mono (by omega)

/-- What can be derived from bounds that stay far below the limit is not dropped. -/
theorem Tight.shift (h : m.Tight) {u : Int} (hu : (m.shift x d).Below u) (h0 : 0 ≤ u)
    (hlimit : 2 * u < Bound.limit) : (m.shift x d).Tight where
  toRegular := h.toRegular.shift x d
  through l i j a b ha hb := by
    obtain ⟨p, hp, hpa⟩ := ha.exists_get
    obtain ⟨q, hq, hqb⟩ := hb.exists_get
    have hpu := hu _ _ _ hp
    have hqu := hu _ _ _ hq
    have hsum := h.through l i j _ _ (bounds_of_get (get_shift_eq_finite.mp hp).1)
      (bounds_of_get (get_shift_eq_finite.mp hq).1)
    -- the stored bounds are at most `u`, so their sum is below the limit; `a` and `b` may not be
    have hmoved : (m.shift x d).Bounds i j (p + q) := (hsum.mono (by omega)).shift (by omega)
    exact hmoved.mono (by omega)
  even i c hc := by
    have heven := h.even i _ (get_shift_eq_finite.mp hc).1
    rw [growth_bar] at heven
    omega
  strong i j a b ha hb := by
    obtain ⟨p, hp, hpa⟩ := ha.exists_get
    obtain ⟨q, hq, hqb⟩ := hb.exists_get
    have hpu := hu _ _ _ hp
    have hqu := hu _ _ _ hq
    have hhalf := h.strong i j _ _ (bounds_of_get (get_shift_eq_finite.mp hp).1)
      (bounds_of_get (get_shift_eq_finite.mp hq).1)
    rw [growth_bar, growth_bar] at hhalf
    have hmoved : (m.shift x d).Bounds i j ((p + q) / 2) := (hhalf.mono (by omega)).shift (by omega)
    exact hmoved.mono (by omega)

theorem bounds_top : (top n).Bounds i j c ↔ i = j ∧ 0 ≤ c := by
  rw [Bounds, top, get_ofFn]
  split <;> simp_all

theorem tight_top (n : Nat) : (top n).Tight where
  toRegular := regular_top n
  through l i j a b ha hb := by
    rw [bounds_top] at ha hb ⊢
    exact ⟨ha.1.trans hb.1, by omega⟩
  even i c hc := absurd (bounds_top.mp (bounds_of_get hc)).1.symm (Literal.bar_ne i)
  strong i j a b ha hb := absurd (bounds_top.mp ha).1.symm (Literal.bar_ne i)

end Matrix

namespace Octagon

variable {s a b : Octagon n} {m k : Matrix n}

/-- The matrix that a constraint leaves to be closed. -/
def refined? (s : Octagon n) (c : Constraint (Fin n)) : Option (Matrix n) :=
  s.closure?.bind fun m =>
    match c.term.linear? with
    | none => if (m.termRange c.term).refutes c.relation then none else some m
    | some f => m.addLinear f c.relation

theorem meet_eq (s : Octagon n) (c : Constraint (Fin n)) :
    s.meet c = (s.refined? c).elim empty ofMatrix := by
  unfold meet refined?
  cases s.closure? with
  | none => rfl
  | some m =>
    cases c.term.linear? with
    | none => by_cases hr : (m.termRange c.term).refutes c.relation = true <;> simp [hr]
    | some f => cases hk : m.addLinear f c.relation <;> simp [hk]

/-- The matrix that an assignment leaves to be closed, none for a translation. -/
def replaced? (s : Octagon n) (x : Fin n) (t : Term (Fin n)) : Option (Matrix n) :=
  s.closure?.bind fun m =>
    match t.linear? with
    | none => some ((m.forget x).addInterval x (m.termRange t))
    | some f => if isShift x f then none else some (m.assignLinear x f)

/-- The matrix that an assignment translates, none if the new value is not the old one and
a constant. -/
def translated? (s : Octagon n) (x : Fin n) (t : Term (Fin n)) : Option (Matrix n) :=
  s.closure?.bind fun m =>
    match t.linear? with
    | none => none
    | some f => if isShift x f then some (m.shift x f.constant) else none

theorem assign_eq (s : Octagon n) (x : Fin n) (t : Term (Fin n)) :
    s.assign x t = (s.translated? x t).elim ((s.replaced? x t).elim empty ofMatrix) tight := by
  unfold assign translated? replaced?
  cases s.closure? with
  | none => rfl
  | some m =>
    cases t.linear? with
    | none => rfl
    | some f => by_cases hf : isShift x f = true <;> simp [hf]

/-- The matrix is small, if it is one that still has to be closed. -/
def Closable (s : Octagon n) : Prop := ∀ m, s = loose m → m.Small

theorem ofMatrix_ne_loose : ofMatrix m ≠ loose k := by
  unfold ofMatrix
  split <;> simp

/-- Everything but a join or a widening is kept closed. -/
theorem meet_ne_loose (s : Octagon n) (c : Constraint (Fin n)) : s.meet c ≠ loose m := by
  rw [meet_eq]
  cases s.refined? c with
  | none => simp
  | some k => exact ofMatrix_ne_loose

theorem assign_ne_loose (s : Octagon n) (x : Fin n) (t : Term (Fin n)) :
    s.assign x t ≠ loose m := by
  rw [assign_eq]
  cases s.translated? x t with
  | some k => simp
  | none =>
    cases s.replaced? x t with
    | none => simp
    | some k => exact ofMatrix_ne_loose

theorem closable_assign (s : Octagon n) (x : Fin n) (t : Term (Fin n)) : (s.assign x t).Closable :=
  fun _ h => absurd h (assign_ne_loose s x t)

theorem closable_meet (s : Octagon n) (c : Constraint (Fin n)) : (s.meet c).Closable :=
  fun _ h => absurd h (meet_ne_loose s c)

/-- The octagons that the operations build. Every matrix that is closed on the way is small; every
matrix that is translated instead satisfies `moved`. -/
inductive Built (moved : Matrix n → Prop) : Octagon n → Prop
  | top : Built moved (.top n)
  | empty : Built moved .empty
  | join {a b : Octagon n} (left : Built moved a) (right : Built moved b) (hleft : a.Closable)
      (hright : b.Closable) : Built moved (a.join b)
  | widen {older newer : Octagon n} (before : Built moved older) (after : Built moved newer)
      (hafter : newer.Closable) : Built moved (older.widen newer)
  | meet {s : Octagon n} (before : Built moved s) (hbefore : s.Closable) (c : Constraint (Fin n))
      (closed : ∀ m, s.refined? c = some m → m.Small) : Built moved (s.meet c)
  | assign {s : Octagon n} (before : Built moved s) (hbefore : s.Closable) (x : Fin n)
    (t : Term (Fin n))
      (closed : ∀ m, s.replaced? x t = some m → m.Small)
      (translated : ∀ m, s.translated? x t = some m → moved m) : Built moved (s.assign x t)

/-- The matrix is regular, and `P` holds of it if it is marked as closed. -/
def Represents (P : Matrix n → Prop) : Octagon n → Prop
  | empty => True
  | loose m => m.Regular
  | tight m => P m

/-- A property that closing establishes and translation keeps. -/
structure Marked (moved P : Matrix n → Prop) : Prop where
  of_tight : ∀ m, m.Tight → P m
  regular : ∀ m, P m → m.Regular
  shift : ∀ m x d, P m → moved (m.shift x d) → P (m.shift x d)

section Marked

variable {moved P : Matrix n → Prop} (hP : Marked moved P)

include hP

theorem Represents.regular (h : s.Represents P) (hm : s.matrix? = some m) : m.Regular := by
  cases s with
  | empty => cases hm
  | loose k =>
    obtain rfl := Option.some.inj hm
    exact h
  | tight k =>
    obtain rfl := Option.some.inj hm
    exact hP.regular k h

theorem Represents.of_closure? (h : s.Represents P) (hs : s.Closable) (hm : s.closure? = some m) :
    P m := by
  cases s with
  | empty => cases hm
  | loose k => exact hP.of_tight m (h.tight_of_close? (hs k rfl) hm)
  | tight k =>
    obtain rfl := Option.some.inj hm
    exact h

theorem represents_ofMatrix (hm : m.Regular) (hsmall : m.Small) : (ofMatrix m).Represents P := by
  unfold ofMatrix
  cases hk : m.close? with
  | some k => exact hP.of_tight k (hm.tight_of_close? hsmall hk)
  | none => trivial

theorem Represents.join (ha : a.Represents P) (hb : b.Represents P) (hca : a.Closable)
    (hcb : b.Closable) : (a.join b).Represents P := by
  have hleft m (hm : a.closure? = some m) : m.Regular := hP.regular m (ha.of_closure? hP hca hm)
  have hright k (hk : b.closure? = some k) : k.Regular := hP.regular k (hb.of_closure? hP hcb hk)
  unfold Octagon.join
  cases hm : a.closure? with
  | none =>
    cases hk : b.closure? with
    | none => trivial
    | some k => exact hright k hk
  | some m =>
    cases hk : b.closure? with
    | none => exact hleft m hm
    | some k => exact (hleft m hm).join (hright k hk)

theorem Represents.widen (ha : a.Represents P) (hb : b.Represents P) (hcb : b.Closable) :
    (a.widen b).Represents P := by
  unfold Octagon.widen
  cases hm : a.matrix? with
  | none => exact hb
  | some m =>
    cases hk : b.closure? with
    | none => exact ha
    | some k => exact (ha.regular hP hm).widen (hP.regular k (hb.of_closure? hP hcb hk))

theorem Represents.meet (hs : s.Represents P) (hc : s.Closable) {c : Constraint (Fin n)}
    (hclosed : ∀ m, s.refined? c = some m → m.Small) : (s.meet c).Represents P := by
  rw [meet_eq]
  cases hm : s.refined? c with
  | none => trivial
  | some m =>
    have hregular : m.Regular := by
      obtain ⟨k, hk, hm⟩ := Option.bind_eq_some_iff.mp hm
      have hkreg := hP.regular k (hs.of_closure? hP hc hk)
      split at hm
      · split at hm
        · cases hm
        · obtain rfl := Option.some.inj hm
          exact hkreg
      · exact hkreg.addLinear hm
    exact represents_ofMatrix hP hregular (hclosed m hm)

theorem Represents.assign (hs : s.Represents P) (hc : s.Closable) {x : Fin n} {t : Term (Fin n)}
    (hclosed : ∀ m, s.replaced? x t = some m → m.Small)
    (hmoved : ∀ m, s.translated? x t = some m → moved m) : (s.assign x t).Represents P := by
  rw [assign_eq]
  cases hm : s.translated? x t with
  | some m =>
    have hmove := hmoved m hm
    obtain ⟨k, hk, hm⟩ := Option.bind_eq_some_iff.mp hm
    split at hm
    · cases hm
    · split at hm
      · obtain rfl := Option.some.inj hm
        exact hP.shift k x _ (hs.of_closure? hP hc hk) hmove
      · cases hm
  | none =>
    cases hm : s.replaced? x t with
    | none => trivial
    | some m =>
      have hregular : m.Regular := by
        obtain ⟨k, hk, hm⟩ := Option.bind_eq_some_iff.mp hm
        have hkreg := hP.regular k (hs.of_closure? hP hc hk)
        split at hm
        · obtain rfl := Option.some.inj hm
          exact (hkreg.forget x).addInterval x _
        · split at hm
          · cases hm
          · obtain rfl := Option.some.inj hm
            exact hkreg.assignLinear x _
      exact represents_ofMatrix hP hregular (hclosed m hm)

/-- What closing establishes and translation keeps holds of every marked matrix. -/
theorem Built.represents (h : Built moved s) : s.Represents P := by
  induction h with
  | top => exact hP.of_tight _ (Matrix.tight_top n)
  | empty => trivial
  | join _ _ hleft hright iha ihb => exact iha.join hP ihb hleft hright
  | widen _ _ hafter iha ihb => exact iha.widen hP ihb hafter
  | meet _ hbefore c closed ih => exact ih.meet hP hbefore closed
  | assign _ hbefore x t closed translated ih => exact ih.assign hP hbefore closed translated

end Marked

theorem marked_regular (moved : Matrix n → Prop) : Marked moved Matrix.Regular where
  of_tight _ h := h.toRegular
  regular _ h := h
  shift _ x d h _ := h.shift x d

theorem marked_tight {moved : Matrix n → Prop} (hmoved : ∀ m, moved m → m.Small) :
    Marked moved Matrix.Tight where
  of_tight _ h := h
  regular _ h := h.toRegular
  shift m x d h hm := by
    obtain ⟨u, hu, h0, hlimit⟩ := (hmoved _ hm).exists_below
    have hle : u ≤ (2 * n + 1) * u := le_mul_of_one_le_left h0 (by omega)
    exact h.shift hu h0 (by omega)

/-- The matrix of an octagon that the operations build is regular. If the matrices left by
translations are small as well, closing a matrix that is marked as closed changes nothing. -/
theorem representation_invariant (moved : Matrix n → Prop) (s : Octagon n) (h : Built moved s) :
    (∀ m, s.matrix? = some m → m.Regular) ∧
    ((∀ m, moved m → m.Small) → ∀ m, s = tight m → m.close? = some m) := by
  refine ⟨fun m hm => ?_, fun hmoved m hm => ?_⟩
  · exact (h.represents (marked_regular moved)).regular (marked_regular moved) hm
  · subst hm
    have htight : m.Tight := h.represents (marked_tight hmoved)
    exact htight.close?_eq

/-- The variables of the plane. -/
def xVar : Fin 2 := ⟨0, Nat.zero_lt_two⟩

def yVar : Fin 2 := ⟨1, Nat.one_lt_two⟩

/-- `x = 0` and `y = 0`. -/
def origin : Octagon 2 := ((top 2).assign xVar (.const 0)).assign yVar (.const 0)

theorem built_origin (moved : Matrix 2 → Prop) : Built moved origin := by
  have hx : ∀ m ∈ (top 2).replaced? xVar (.const 0), m.Within 0 := by decide +kernel
  have hy : ∀ m ∈ ((top 2).assign xVar (.const 0)).replaced? yVar (.const 0), m.Within 0 := by
    decide +kernel
  have hnone : (top 2).translated? xVar (.const 0) = none := by decide +kernel
  have hnone' : ((top 2).assign xVar (.const 0)).translated? yVar (.const 0) = none := by
    decide +kernel
  have hfirst : Built moved ((top 2).assign xVar (.const 0)) :=
    .assign .top (fun _ h => nomatch h) xVar _ (fun m hm => ⟨0, by decide, hx m hm⟩)
      (by simp [hnone])
  exact hfirst.assign (closable_assign _ _ _) yVar _ (fun m hm => ⟨0, by decide, hy m hm⟩)
    (by simp [hnone'])

/-- The points `(0, 0)` and `(1, 0)`. -/
def segment : Octagon 2 := origin.join (origin.assign xVar (.add (.var xVar) (.const 1)))

theorem point_segment : segment.Point fun _ => 0 := by
  have horigin := ((point_top fun _ => 0).assign xVar (.const 0)).assign yVar (.const 0)
  rw [Term.eval, Term.eval, Function.update_eq_self, Function.update_eq_self] at horigin
  exact .join (.inl horigin)

theorem built_segment : Built Matrix.Small segment := by
  have hstay : origin.replaced? xVar (.add (.var xVar) (.const 1)) = none := by decide +kernel
  have hmove : ∀ m ∈ origin.translated? xVar (.add (.var xVar) (.const 1)), m.Within 2 := by
    decide +kernel
  have hright :=
    (built_origin Matrix.Small).assign (closable_assign _ _ _) xVar (.add (.var xVar) (.const 1))
    (by simp [hstay]) fun m hm => ⟨2, by decide, hmove m hm⟩
  exact (built_origin Matrix.Small).join hright (closable_assign _ _ _) (closable_assign _ _ _)

theorem closable_segment : segment.Closable := by
  have hB : ∀ m ∈ segment.matrix?, m.Within 2 := by decide +kernel
  rintro m hm
  exact ⟨2, by decide, hB m (by rw [hm]; rfl)⟩

/-- `y < x` keeps one of two points. -/
theorem representation_invariant_segment :
    Built Matrix.Small (segment.meet ⟨.sub (.var xVar) (.var yVar), .gt⟩) ∧
    ∃ m, segment.meet ⟨.sub (.var xVar) (.var yVar), .gt⟩ = tight m ∧ m.Regular ∧
    m.close? = some m := by
  have hB : ∀ m ∈ segment.refined? ⟨.sub (.var xVar) (.var yVar), .gt⟩, m.Within 2 := by
    decide +kernel
  have hbuilt : Built Matrix.Small (segment.meet ⟨.sub (.var xVar) (.var yVar), .gt⟩) :=
    built_segment.meet closable_segment _ fun m hm => ⟨2, by decide, hB m hm⟩
  obtain ⟨hregular, hfixed⟩ := representation_invariant Matrix.Small _ hbuilt
  have hsome : (segment.meet ⟨.sub (.var xVar) (.var yVar), .gt⟩).matrix?.isSome = true := by
    decide +kernel
  refine ⟨hbuilt, ?_⟩
  cases hs : segment.meet ⟨.sub (.var xVar) (.var yVar), .gt⟩ with
  | empty => simp [hs, matrix?] at hsome
  | loose m => exact absurd hs (meet_ne_loose _ _)
  | tight m => exact ⟨m, rfl, hregular m (by rw [hs]; rfl), hfixed (fun _ h => h) m hs⟩

/-- `2 ^ 124`, as a product of numbers that a program can write. -/
def farAway : Term (Fin 2) := .mul (.const 0x4000000000000000) (.const 0x4000000000000000)

/-- The origin after `x := x + 2 ^ 124` and `x := x - 2 ^ 124`. -/
def returned : Octagon 2 :=
  (origin.assign xVar (.add (.var xVar) farAway)).assign xVar (.sub (.var xVar) farAway)

/-- Far from the origin the bound on `2 * x` is dropped, and it is not there on return. All that was
closed before is small, but the matrix that is marked as closed is not: `x + y ≤ 0` and `x - y ≤ 0`
give the bound back. -/
theorem exists_marked_not_closed :
    ∃ s : Octagon 2, Built (fun _ => True) s ∧ ∃ m, s = tight m ∧ m.close? ≠ some m := by
  have hout : origin.replaced? xVar (.add (.var xVar) farAway) = none := by decide +kernel
  have hback : (origin.assign xVar (.add (.var xVar) farAway)).replaced? xVar
      (.sub (.var xVar) farAway) = none := by decide +kernel
  have hbuilt : Built (fun _ => True) returned := by
    have hfar :=
      (built_origin fun _ => True).assign (closable_assign _ _ _) xVar (.add (.var xVar) farAway)
      (by simp [hout]) fun _ _ => trivial
    exact hfar.assign (closable_assign _ _ _) xVar _ (by simp [hback]) fun _ _ => trivial
  have hchanged : returned.matrix?.bind Matrix.close? ≠ returned.matrix? := by decide +kernel
  refine ⟨returned, hbuilt, ?_⟩
  cases hs : returned with
  | empty => simp [hs, matrix?] at hchanged
  | loose m => exact absurd hs (assign_ne_loose _ _ _)
  | tight m => exact ⟨m, rfl, by simpa [hs, matrix?] using hchanged⟩

end Octagon

end Lifespan
