import Lifespan.Proofs.Octagon.Evaluation
import Lifespan.Proofs.Octagon.Representation

namespace Lifespan

namespace Bound

variable {a b c : Bound}

/-- `a` is the bound `b`, or has lost it. -/
def Forgets (a b : Bound) : Prop := a = absent ∨ a = b

theorem forgets_ofInt (c : Int) : (ofInt c).Forgets (finite c) := by
  unfold ofInt
  split
  · exact .inr rfl
  · exact .inl rfl

theorem min_absent (b : Bound) : min b absent = b := by
  cases b <;> rfl

theorem min_eq_of_forgets (h : b.Forgets a) : min a b = a := by
  rcases h with rfl | rfl
  · exact min_absent a
  · change Bound.min b b = b
    cases b <;> simp [Bound.min]

theorem Forgets.min (ha : a.Forgets c) (hb : b.Forgets c) : (min a b).Forgets c := by
  rcases ha with rfl | rfl
  · exact hb
  · exact .inr (min_eq_of_forgets hb)

theorem Forgets.even (h : a.Forgets b) : a.even.Forgets b.even := by
  rcases h with rfl | rfl
  · exact .inl rfl
  · exact .inr rfl

theorem Forgets.allows (h : a.Forgets b) {d : Int} (hb : b.Allows d) : a.Allows d := by
  rcases h with rfl | rfl
  · exact allows_absent
  · exact hb

end Bound

namespace Matrix

variable {n : Nat} {m q : Matrix n} {p : Fin n → Int} {S : Finset (Fin n)}
    {i j k : Literal n} {x y : Fin n}

/-- The variables of `S` have their values at `p`, the others any. -/
def pinned (p : Fin n → Int) (S : Finset (Fin n)) : Matrix n :=
  ofFn fun i j => if i = j ∨ i.var ∈ S ∧ j.var ∈ S then .finite (j.value p - i.value p) else .absent

theorem pinned_empty (p : Fin n → Int) : pinned p ∅ = top n := by
  apply ext_get
  intro i j
  by_cases hij : i = j <;> simp [pinned, top, hij]

theorem get_pinned_self (p : Fin n → Int) (S : Finset (Fin n)) (i : Literal n) :
    (pinned p S).get i i = .finite 0 := by
  simp [pinned]

theorem get_pinned_of_mem (hi : i.var ∈ S) (hj : j.var ∈ S) :
    (pinned p S).get i j = .finite (j.value p - i.value p) := by
  simp [pinned, hi, hj]

theorem get_pinned_eq_finite {c : Int} : (pinned p S).get i j = .finite c ↔
    (i = j ∨ i.var ∈ S ∧ j.var ∈ S) ∧ c = j.value p - i.value p := by
  rw [pinned, get_ofFn]
  split
  case isTrue h =>
    simp [h, eq_comm]
  case isFalse h =>
    simp [h]

theorem get_pinned_bar (p : Fin n → Int) (S : Finset (Fin n)) (i : Literal n) :
    (pinned p S).get i.bar i = if i.var ∈ S then .finite (2 * i.value p) else .absent := by
  simp [pinned, Literal.bar_ne, two_mul]

theorem get_pinned_bar_of_mem (hi : i.var ∈ S) (hj : j.var ∈ S) :
    (pinned p S).get i.bar j = .finite (j.value p + i.value p) := by
  simp [pinned, hi, hj]

theorem point_pinned (p : Fin n → Int) (S : Finset (Fin n)) : (pinned p S).Point p := by
  intro i j
  cases h : (pinned p S).get i j with
  | absent => exact Bound.allows_absent
  | finite c => exact (get_pinned_eq_finite.mp h).2.ge

/-- The diagonal and the bounds on single literals are those of `q`; of the other bounds some may
be lost. -/
structure Generates (m q : Matrix n) : Prop where
  cells : ∀ i j, (m.get i j).Forgets (q.get i j)
  unary : ∀ i : Literal n, m.get i.bar i = q.get i.bar i
  diagonal : ∀ i, m.get i i = q.get i i

namespace Generates

theorem refl (m : Matrix n) : m.Generates m := ⟨fun _ _ => .inr rfl, fun _ => rfl, fun _ => rfl⟩

/-- Bounds of `q` may be added anywhere. -/
theorem of_min (h : m.Generates q) {k : Matrix n}
    (hk : ∀ i j, ∃ b : Bound, b.Forgets (q.get i j) ∧ k.get i j = min (m.get i j) b) :
    k.Generates q where
  cells i j := by
    obtain ⟨b, hb, hget⟩ := hk i j
    rw [hget]
    exact (h.cells i j).min hb
  unary i := by
    obtain ⟨b, hb, hget⟩ := hk i.bar i
    rw [hget, h.unary, Bound.min_eq_of_forgets hb]
  diagonal i := by
    obtain ⟨b, hb, hget⟩ := hk i i
    rw [hget, h.diagonal, Bound.min_eq_of_forgets hb]

theorem refine (h : m.Generates q) {c : Int} (hc : (Bound.ofInt c).Forgets (q.get i j)) :
    (m.refine i j c).Generates q := by
  apply h.of_min
  intro k l
  rw [get_refine]
  split
  case isTrue hkl =>
    obtain ⟨rfl, rfl⟩ := hkl
    exact ⟨_, hc, rfl⟩
  case isFalse => exact ⟨.absent, .inl rfl, (Bound.min_absent _).symm⟩

theorem addSum (h : m.Generates (pinned p S)) (hi : i.var ∈ S) (hj : j.var ∈ S) {c : Int}
    (hc : c = i.value p + j.value p) : (m.addSum i j c).Generates (pinned p S) := by
  refine (h.refine ?_).refine ?_
  · rw [get_pinned_bar_of_mem hj hi, ← hc]
    exact Bound.forgets_ofInt c
  · rw [get_pinned_bar_of_mem hi hj, add_comm, ← hc]
    exact Bound.forgets_ofInt c

theorem relate (h : m.Generates (pinned p S)) (hx : x ∈ S) (hy : y ∈ S) {k : Int}
    (hk : k.natAbs = 1) {rest : Interval} (hrest : rest.EndsAt (p x - k * p y)) :
    (m.relate x y k rest).Generates (pinned p S) := by
  have hlow : ∀ m : Matrix n, m.Generates (pinned p S) → ∀ l, rest.lo = some l →
      (m.addSum (.neg x) (.ofUnit k y) (-l)).Generates (pinned p S) := by
    intro m hm l hl
    apply hm.addSum hx hy
    rw [Literal.value_neg, Literal.value_ofUnit hk, hrest.1 l hl]
    omega
  cases hu : rest.hi with
  | none =>
    cases hl : rest.lo with
    | none => simpa only [Matrix.relate, hu, hl] using h
    | some l => simpa only [Matrix.relate, hu, hl] using hlow m h l hl
  | some u =>
    have hhigh : (m.addSum (.pos x) (.ofUnit (-k) y) u).Generates (pinned p S) := by
      apply h.addSum hx hy
      rw [Literal.value_pos, Literal.value_ofUnit (natAbs_neg_eq_one hk), neg_mul, hrest.2 u hu]
      omega
    cases hl : rest.lo with
    | none => simpa only [Matrix.relate, hu, hl] using hhigh
    | some l => simpa only [Matrix.relate, hu, hl] using hlow _ hhigh l hl

theorem pinned_of_get (h : m.Generates (pinned p S)) {c : Int} (hc : m.get i j = .finite c) :
    (i = j ∨ i.var ∈ S ∧ j.var ∈ S) ∧ c = j.value p - i.value p := by
  have hcell := (h.cells i j).resolve_left (by simp [hc])
  exact get_pinned_eq_finite.mp (hcell.symm.trans hc)

/-- Two bounds of a pinned matrix add up to one of its bounds. -/
theorem forgets_add (h : m.Generates (pinned p S)) {c : Int} (hc : (pinned p S).get i k = .finite c)
    (j : Literal n) : (Bound.finite c + m.get k j).Forgets ((pinned p S).get i j) := by
  cases hkj : m.get k j with
  | absent => exact .inl rfl
  | finite d =>
    obtain ⟨hi, hc⟩ := get_pinned_eq_finite.mp hc
    obtain ⟨hj, hd⟩ := h.pinned_of_get hkj
    have hends : i = j ∨ i.var ∈ S ∧ j.var ∈ S := by
      rcases hi with rfl | ⟨hi, hk⟩
      · exact hj
      · rcases hj with rfl | ⟨-, hj⟩
        · exact .inr ⟨hi, hk⟩
        · exact .inr ⟨hi, hj⟩
    have hsum : (pinned p S).get i j = .finite (c + d) :=
      get_pinned_eq_finite.mpr ⟨hends, by omega⟩
    rw [hsum]
    exact Bound.forgets_ofInt (c + d)

theorem pivot (h : m.Generates (pinned p S)) (k : Literal n) :
    (m.pivot k).Generates (pinned p S) := by
  apply h.of_min
  intro i j
  rw [get_pivot]
  cases hik : m.get i k with
  | absent => exact ⟨.absent, .inl rfl, (Bound.min_absent _).symm⟩
  | finite c => exact ⟨_, h.forgets_add (get_pinned_eq_finite.mpr (h.pinned_of_get hik)) j, rfl⟩

theorem shortestPaths (h : m.Generates (pinned p S)) : m.shortestPaths.Generates (pinned p S) :=
  List.foldlRecOn (motive := fun k : Matrix n => k.Generates (pinned p S)) _ _ h fun _ hk
    l _ => hk.pivot l

theorem even_pinned (p : Fin n → Int) (S : Finset (Fin n)) (i : Literal n) :
    ((pinned p S).get i i.bar).even = (pinned p S).get i i.bar := by
  have hcell := get_pinned_bar p S i.bar
  rw [Literal.bar_bar] at hcell
  rw [hcell]
  split
  · rw [Bound.even]
    congr 1
    omega
  · rfl

theorem unary_bar (h : m.Generates q) (i : Literal n) : m.get i i.bar = q.get i i.bar := by
  have hcell := h.unary i.bar
  rwa [Literal.bar_bar] at hcell

theorem tighten (h : m.Generates (pinned p S)) : m.tighten.Generates (pinned p S) where
  cells i j := by
    rw [Matrix.tighten, get_ofFn]
    split
    case isTrue hj =>
      subst hj
      rw [← even_pinned]
      exact (h.cells i i.bar).even
    case isFalse => exact h.cells i j
  unary i := by
    have heven := even_pinned p S i.bar
    rw [Literal.bar_bar] at heven
    rw [Matrix.tighten, get_ofFn, if_pos (Literal.bar_bar i).symm, h.unary, heven]
  diagonal i := by
    rw [Matrix.tighten, get_ofFn, if_neg (Literal.bar_ne i).symm, h.diagonal]

theorem point (h : m.Generates (pinned p S)) : m.Point p :=
  fun i j => (h.cells i j).allows (point_pinned p S i j)

end Generates

/-- Each pinned variable is a signed 64-bit integer. -/
def Moderate (p : Fin n → Int) (S : Finset (Fin n)) : Prop := ∀ x ∈ S, FitsIn int64Limit (p x)

theorem Moderate.value_bounds (h : Moderate p S) (hi : i.var ∈ S) :
    -int64Limit ≤ i.value p ∧ i.value p ≤ int64Limit := by
  obtain ⟨hlow, hhigh⟩ := h i.var hi
  unfold Literal.value
  split <;> omega

/-- A difference of pinned literals is far from the limit. -/
theorem Moderate.ofInt_sub (h : Moderate p S) (hi : i.var ∈ S) (hj : j.var ∈ S) :
    Bound.ofInt (j.value p - i.value p) = .finite (j.value p - i.value p) := by
  have hib := h.value_bounds hi
  have hjb := h.value_bounds hj
  have hlimit : 2 * int64Limit < Bound.limit := by decide
  exact if_pos (by omega)

theorem Generates.strengthen (h : m.Generates (pinned p S)) (hp : Moderate p S) :
    m.strengthen = pinned p S := by
  apply ext_get
  intro i j
  rw [Matrix.strengthen, get_ofFn, h.unary_bar i, h.unary j]
  by_cases hboth : i.var ∈ S ∧ j.var ∈ S
  · -- the bounds on the two literals give the bound between them
    have hhalf : ((pinned p S).get i i.bar).halfSum ((pinned p S).get j.bar j) =
        .finite (j.value p - i.value p) := by
      rw [get_pinned_of_mem hboth.1 (by exact hboth.1), get_pinned_of_mem
        (by exact hboth.2) hboth.2, Bound.halfSum, Literal.value_bar, Literal.value_bar,
          ← hp.ofInt_sub hboth.1 hboth.2]
      congr 1
      omega
    have hcell := h.cells i j
    rw [get_pinned_of_mem hboth.1 hboth.2] at hcell
    rw [hhalf, get_pinned_of_mem hboth.1 hboth.2]
    rcases hcell with habsent | hfinite
    · rw [habsent]
      rfl
    · rw [hfinite]
      exact Bound.min_eq_of_forgets (.inr rfl)
  · have hhalf : ((pinned p S).get i i.bar).halfSum ((pinned p S).get j.bar j) = .absent := by
      have hcell := get_pinned_bar p S i.bar
      rw [Literal.bar_bar] at hcell
      rw [hcell, get_pinned_bar]
      by_cases hi : i.var ∈ S
      · have hj : j.var ∉ S := fun hj => hboth ⟨hi, hj⟩
        rw [if_neg hj, Literal.var_bar, if_pos hi]
        rfl
      · rw [Literal.var_bar, if_neg hi]
        rfl
    rw [hhalf, Bound.min_absent]
    by_cases hij : i = j
    · rw [hij, h.diagonal]
    · have habsent : (pinned p S).get i j = .absent := by simp [pinned, hij, hboth]
      have hcell := h.cells i j
      rw [habsent] at hcell ⊢
      exact hcell.elim id id

/-- Closing finds the bounds that were lost. -/
theorem Generates.close? (h : m.Generates (pinned p S)) (hp : Moderate p S) :
    m.close? = some (pinned p S) := by
  cases hk : m.close? with
  | none => exact absurd h.point (not_point_of_close? hk)
  | some k =>
    obtain ⟨-, -, -, rfl⟩ := close?_eq_some.mp hk
    rw [h.shortestPaths.tighten.strengthen hp, zeroDiagonal_eq (get_pinned_self p S)]

section Ranges

open Linear

theorem upper?_pinned (hi : i.var ∈ S) : (pinned p S).upper? i = some (i.value p) := by
  rw [upper?, get_pinned_bar, if_pos hi]
  simp [Bound.toInt?]

theorem upperSum?_pinned (hi : i.var ∈ S) (hj : j.var ∈ S) :
    (pinned p S).upperSum? i j = some (i.value p + j.value p) := by
  rw [upperSum?, get_pinned_bar_of_mem hj hi]
  rfl

theorem interval_pinned (hx : x ∈ S) : (pinned p S).interval x = .point (p x) := by
  rw [interval, upper?_pinned hx, upper?_pinned hx]
  simp [Interval.point]

/-- The bounds between two pinned variables are those of their values. -/
theorem unitPair_pinned {k l : Int} (hx : x ∈ S) (hy : y ∈ S) (hk : k.natAbs = 1)
    (hl : l.natAbs = 1) :
    (⟨((pinned p S).upperSum? (.ofUnit (-k) x) (.ofUnit (-l) y)).map (-·),
      (pinned p S).upperSum? (.ofUnit k x) (.ofUnit l y)⟩ : Interval) =
      .point (k * p x + l * p y) := by
  rw [upperSum?_pinned hx hy, upperSum?_pinned hx hy, Literal.value_ofUnit hk,
    Literal.value_ofUnit hl, Literal.value_ofUnit (natAbs_neg_eq_one hk), Literal.value_ofUnit
      (natAbs_neg_eq_one hl), Option.map_some,
    Interval.point]
  congr 2
  ring

theorem sumOf_append (m : Matrix n) (l : List (Fin n × Int)) (s : Fin n × Int) :
    m.sumOf (l ++ [s]) = (m.sumOf l).add ((m.interval s.1).scale s.2) := by
  simp [sumOf]

theorem endsAt_sumOf_pinned {l : List (Fin n × Int)} (hl : ∀ s ∈ l, s.1 ∈ S) :
    ((pinned p S).sumOf l).EndsAt (sumValue p l) := by
  induction l using List.reverseRecOn with
  | nil => exact Interval.endsAt_point 0
  | append_singleton l s ih =>
    have hs : s.1 ∈ S := hl s (by simp)
    rw [sumOf_append, sumValue_append, interval_pinned hs]
    exact (ih fun t ht => hl t (List.mem_append_left _ ht)).add (Interval.endsAt_scale _ _)

theorem sumOf_pinned {l : List (Fin n × Int)} (hl : ∀ s ∈ l, s.1 ∈ S)
    (hproducts : ∀ s ∈ l, FitsIn int128Limit (s.2 * p s.1))
    (hsums : ∀ k ∈ l.inits, FitsIn int128Limit (sumValue p k)) :
    (pinned p S).sumOf l = .point (sumValue p l) := by
  induction l using List.reverseRecOn with
  | nil => rfl
  | append_singleton l s ih =>
    have hs : s.1 ∈ S := hl s (by simp)
    have hrest := ih (fun t ht => hl t (List.mem_append_left _ ht))
      (fun t ht => hproducts t (List.mem_append_left _ ht))
      (fun k hk => hsums k
        ((List.mem_inits k _).mpr (((List.mem_inits k l).mp hk).trans (List.prefix_append l [s]))))
    have hlast := hsums (l ++ [s]) ((List.mem_inits _ _).mpr (List.prefix_refl _))
    rw [sumValue_append] at hlast
    rw [sumOf_append, sumValue_append, hrest, interval_pinned hs, Interval.scale_point
      (hproducts s (by simp)), Interval.add_point hlast]

variable {f : Linear n} {t : Term (Fin n)}

theorem endsAt_range_pinned (hf : ∀ s ∈ f.summands, s.1 ∈ S) :
    ((pinned p S).range f).EndsAt (f.eval p) := by
  rw [eval_eq_sumValue]
  unfold range
  apply Interval.EndsAt.add _ (Interval.endsAt_point f.constant)
  split
  case h_1 y k z l hpair =>
    obtain ⟨hlist, hk, hl⟩ := unitPair?_eq_some hpair
    have hy : y ∈ S := hf (y, k) (by simp [hlist])
    have hz : z ∈ S := hf (z, l) (by simp [hlist])
    apply Interval.EndsAt.inter _ (endsAt_sumOf_pinned hf)
    rw [unitPair_pinned hy hz hk hl, hlist]
    simpa using Interval.endsAt_point (k * p y + l * p z)
  case h_2 => exact endsAt_sumOf_pinned hf

/-- Between pinned variables a form has one value. -/
theorem range_pinned (hf : ∀ s ∈ f.summands, s.1 ∈ S) (hfits : f.Fits p) :
    (pinned p S).range f = .point (f.eval p) := by
  have hsum := sumOf_pinned hf hfits.products hfits.sums
  have htotal := hfits.total
  rw [eval_eq_sumValue] at htotal ⊢
  rw [← Interval.add_point htotal]
  unfold range
  dsimp only
  congr 1
  split
  case h_1 y k z l hpair =>
    obtain ⟨hlist, hk, hl⟩ := unitPair?_eq_some hpair
    have hy : y ∈ S := hf (y, k) (by simp [hlist])
    have hz : z ∈ S := hf (z, l) (by simp [hlist])
    have hvalue : sumValue p f.summands = k * p y + l * p z := by simp [hlist]
    rw [unitPair_pinned hy hz hk hl, hsum, hvalue, Interval.inter_point]
  case h_2 => exact hsum

theorem termRange_pinned (ht : ∀ y ∈ t.vars, y ∈ S) (hfits : t.StepsFit p) :
    (pinned p S).termRange t = .point (t.eval p) := by
  induction t with
  | const c => rfl
  | var y => exact interval_pinned (ht y (List.mem_singleton_self y))
  | add l r ihl ihr =>
    obtain ⟨hl, hr, hsum⟩ := hfits
    rw [termRange, ihl (fun y hy => ht y (List.mem_append_left _ hy)) hl,
      ihr (fun y hy => ht y (List.mem_append_right _ hy)) hr, Interval.add_point hsum]
    rfl
  | sub l r ihl ihr =>
    obtain ⟨hl, hr, hsum⟩ := hfits
    rw [termRange, ihl (fun y hy => ht y (List.mem_append_left _ hy)) hl,
      ihr (fun y hy => ht y (List.mem_append_right _ hy)) hr, Interval.neg_point,
        Interval.add_point hsum]
    rfl
  | mul l r ihl ihr =>
    obtain ⟨hl, hr, hproduct⟩ := hfits
    rw [termRange, ihl (fun y hy => ht y (List.mem_append_left _ hy)) hl,
      ihr (fun y hy => ht y (List.mem_append_right _ hy)) hr, Interval.mul_point hproduct]
    rfl

theorem rangeOf_pinned (ht : ∀ y ∈ t.vars, y ∈ S) (hfits : t.Fits p) :
    (pinned p S).rangeOf t = .point (t.eval p) := by
  unfold Term.Fits at hfits
  unfold rangeOf
  cases hf : t.linear? with
  | none =>
    rw [hf] at hfits
    exact termRange_pinned ht hfits
  | some f =>
    rw [hf] at hfits
    rw [← Term.eval_linear? p hf]
    exact range_pinned (fun s hs => ht s.1 (Term.mem_vars_of_summand hf hs)) hfits

end Ranges

section Assignment

open Linear

variable {c : Int}

theorem get_addInterval_point (m : Matrix n) (p : Fin n → Int) (x : Fin n) (i j : Literal n) :
    (m.addInterval x (.point (p x))).get i j =
      if i = j.bar ∧ j.var = x then min (m.get i j) (.ofInt (double (j.value p)))
      else m.get i j := by
  change ((m.addUpper (.pos x) (p x)).addUpper (.neg x) (-p x)).get i j = _
  rw [addUpper, addUpper, get_refine, get_refine]
  obtain ⟨y, negative⟩ := j
  by_cases hy : y = x
  · subst hy
    cases negative <;> simp [Literal.bar, Literal.pos, Literal.neg, Literal.value, eq_comm]
  · have hother : ∀ s, (⟨x, s⟩ : Literal n) ≠ ⟨y, negative⟩ :=
      fun s h => hy (congrArg Literal.var h).symm
    simp [Literal.pos, Literal.neg, hy, hother]

theorem Moderate.ofInt_double (hp : Moderate p S) (hi : i.var ∈ S) :
    Bound.ofInt (double (i.value p)) = .finite (2 * i.value p) := by
  have hbounds := hp.value_bounds hi
  have hlimit : 2 * int64Limit < Bound.limit := by decide
  have hwide : 2 * int64Limit < int128Limit := by decide
  have hdouble : double (i.value p) = 2 * i.value p := by
    unfold double
    rw [if_neg (by omega), if_neg (by omega)]
  rw [hdouble]
  exact if_pos (by omega)

theorem get_forget_pinned_of_ne (c : Int) (hi : i.var ≠ x) (hj : j.var ≠ x) :
    ((pinned p S).forget x).get i j = (pinned (Function.update p x c) (insert x S)).get i j := by
  simp only [forget, pinned, get_ofFn, hi, hj, or_self, and_false, if_false,
    Finset.mem_insert, false_or, value_update_of_ne hi, value_update_of_ne hj]

theorem get_forget_of_eq (m : Matrix n) (hij : i ≠ j) (hx : i.var = x ∨ j.var = x) :
    (m.forget x).get i j = .absent := by
  simp [forget, hij, hx]

/-- Once the old value of `x` is dropped, the bounds on its new value pin it. -/
theorem generates_addInterval (hp : Moderate (Function.update p x c) (insert x S)) :
    (((pinned p S).forget x).addInterval x (.point c)).Generates
      (pinned (Function.update p x c) (insert x S)) := by
  have hget := get_addInterval_point ((pinned p S).forget x) (Function.update p x c) x
  rw [Function.update_self] at hget
  have hunary : ∀ i : Literal n, (((pinned p S).forget x).addInterval x (.point c)).get i.bar i =
      (pinned (Function.update p x c) (insert x S)).get i.bar i := by
    intro i
    rw [hget]
    by_cases hi : i.var = x
    · have hmem : i.var ∈ insert x S := by simp [hi]
      rw [if_pos ⟨rfl, hi⟩, get_forget_of_eq _ (Literal.bar_ne i) (.inr hi),
        hp.ofInt_double hmem, get_pinned_bar, if_pos hmem]
      rfl
    · rw [if_neg fun h => hi h.2]
      exact get_forget_pinned_of_ne c hi hi
  have hdiagonal : ∀ i : Literal n, (((pinned p S).forget x).addInterval x (.point c)).get i
      i = .finite 0 := by
    intro i
    rw [hget, if_neg fun h => Literal.bar_ne i h.1.symm]
    simp [forget, get_pinned_self]
  refine ⟨fun i j => ?_, hunary, fun i => (hdiagonal i).trans (get_pinned_self _ _ i).symm⟩
  by_cases hbar : i = j.bar
  · subst hbar
    exact .inr (hunary j)
  · by_cases hij : i = j
    · subst hij
      exact .inr ((hdiagonal i).trans (get_pinned_self _ _ i).symm)
    · rw [hget, if_neg fun h => hbar h.1]
      by_cases hx : i.var = x ∨ j.var = x
      · exact .inl (get_forget_of_eq _ hij hx)
      · obtain ⟨hi, hj⟩ := not_or.mp hx
        exact .inr (get_forget_pinned_of_ne c hi hj)

theorem mem_summands_of_without {f : Linear n} {s : Fin n × Int} (hs : s ∈ (f.without y).summands) :
    s ∈ f.summands := by
  obtain ⟨hcoeff, hne⟩ := mem_summands.mp hs
  have hsy : s.1 ≠ y := by
    intro hsy
    rw [hsy, without, Vector.get_set_self] at hcoeff
    exact hne hcoeff.symm
  rw [without, Vector.get_set_of_ne _ _ hsy] at hcoeff
  exact mem_summands.mpr ⟨hcoeff, hne⟩

theorem generates_assignLinear {f : Linear n} (hf : ∀ s ∈ f.summands, s.1 ∈ S) (hfits : f.Fits p)
    (hp : Moderate (Function.update p x (f.eval p)) (insert x S)) :
    ((pinned p S).assignLinear x f).Generates (pinned (Function.update p x (f.eval p))
      (insert x S)) := by
  have hstart := generates_addInterval hp
  rw [← range_pinned hf hfits] at hstart
  -- each unit summand adds bounds between `x` and its variable that hold at the new values
  refine List.foldlRecOn (motive := fun k : Matrix n => k.Generates _) _ _ hstart ?_
  intro k hk s hs
  obtain ⟨⟨y, c⟩, hmem, rfl⟩ := List.mem_map.mp hs
  obtain ⟨hsummand, hcond⟩ := List.mem_filter.mp hmem
  obtain ⟨hne, hunit⟩ := of_decide_eq_true hcond
  have hrest := endsAt_range_pinned (p := p) (S := S) (f := f.without y)
    fun s hs => hf s (mem_summands_of_without hs)
  rw [eval_without, coeff_of_mem_summands hsummand] at hrest
  refine hk.relate (Finset.mem_insert_self x S) (Finset.mem_insert_of_mem (hf _ hsummand)) hunit ?_
  rw [Function.update_self, Function.update_of_ne hne]
  exact hrest

/-- A translation moves the bounds along with the value. -/
theorem shift_pinned (hp : Moderate (Function.update p x (p x + c)) S) :
    (pinned p S).shift x c = pinned (Function.update p x (p x + c)) S := by
  apply ext_get
  intro i j
  have hdiff : j.value (Function.update p x (p x + c)) - i.value (Function.update p x (p x + c)) =
      j.value p - i.value p + (growth x c j - growth x c i) := by
    rw [value_update_add, value_update_add]
    omega
  rw [shift, get_ofFn]
  by_cases hij : i = j
  · rw [hij, get_pinned_self, get_pinned_self, sub_self]
    rfl
  · by_cases hboth : i.var ∈ S ∧ j.var ∈ S
    · rw [get_pinned_of_mem hboth.1 hboth.2, get_pinned_of_mem hboth.1 hboth.2,
        Bound.shift, ← hdiff, hp.ofInt_sub hboth.1 hboth.2]
    · simp [pinned, hij, hboth, Bound.shift]

end Assignment

end Matrix

namespace Octagon

variable {n : Nat} {s a b : Octagon n} {p : Fin n → Int} {S : Finset (Fin n)} {x : Fin n}
    {t : Term (Fin n)}

/-- The octagon knows the variables of `S`, which have the values of `p`, and nothing about
the others. -/
structure Pins (s : Octagon n) (p : Fin n → Int) (S : Finset (Fin n)) : Prop where
  closure : s.closure? = some (.pinned p S)
  moderate : Matrix.Moderate p S

theorem pins_top (p : Fin n → Int) : (top n).Pins p ∅ :=
  ⟨congrArg some (Matrix.pinned_empty p).symm, fun _ h => absurd h (Finset.notMem_empty _)⟩

theorem Pins.empty_join (h : s.Pins p S) : (empty.join s).Pins p S := by
  refine ⟨?_, h.moderate⟩
  have hjoin : empty.join s = loose (.pinned p S) := by
    unfold join
    rw [h.closure]
    rfl
  rw [hjoin]
  exact (Matrix.Generates.refl _).close? h.moderate

theorem Pins.of_same (h : b.Pins p S) (hab : a.same b = true) : a.Pins p S :=
  ⟨(of_decide_eq_true hab).trans h.closure, h.moderate⟩

/-- Assigning a term over known variables makes one more variable known. -/
theorem Pins.assign (h : s.Pins p S) (ht : ∀ y ∈ t.vars, y ∈ S) (hfits : t.Fits p)
    (hvalue : FitsIn int64Limit (t.eval p)) :
    (s.assign x t).Pins (Function.update p x (t.eval p)) (insert x S) := by
  have hmoderate : Matrix.Moderate (Function.update p x (t.eval p)) (insert x S) := by
    intro y hy
    by_cases hyx : y = x
    · rw [hyx, Function.update_self]
      exact hvalue
    · rw [Function.update_of_ne hyx]
      exact h.moderate y (Finset.mem_of_mem_insert_of_ne hy hyx)
  refine ⟨?_, hmoderate⟩
  unfold Term.Fits at hfits
  simp only [Octagon.assign, h.closure]
  cases hf : t.linear? with
  | none =>
    rw [hf] at hfits
    dsimp only
    rw [closure?_ofMatrix, Matrix.termRange_pinned ht hfits]
    exact (Matrix.generates_addInterval hmoderate).close? hmoderate
  | some f =>
    rw [hf] at hfits
    have hsummands : ∀ s ∈ f.summands, s.1 ∈ S :=
      fun s hs => ht s.1 (Term.mem_vars_of_summand hf hs)
    rw [← Term.eval_linear? p hf] at hmoderate ⊢
    dsimp only
    -- a translation moves the closed matrix, and any other form is closed again
    split
    case isTrue hshift =>
      have hx : x ∈ S :=
        hsummands (x, 1) (by rw [of_decide_eq_true hshift]; exact List.mem_singleton_self _)
      rw [eval_of_isShift hshift, Finset.insert_eq_of_mem hx] at hmoderate ⊢
      rw [closure?, Matrix.shift_pinned hmoderate]
    case isFalse =>
      rw [closure?_ofMatrix]
      exact (Matrix.generates_assignLinear hsummands hfits hmoderate).close? hmoderate

/-- A constraint on known variables is decided. -/
theorem Pins.satisfies_iff (h : s.Pins p S) {c : Constraint (Fin n)} (hc : ∀ y ∈ c.term.vars, y ∈ S)
    (hfits : c.term.Fits p) : s.satisfies c = true ↔ c.Holds p := by
  simp only [satisfies, h.closure, Matrix.rangeOf_pinned hc hfits]
  exact Interval.entails_point

end Octagon

end Lifespan
