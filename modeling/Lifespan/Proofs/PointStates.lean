import Lifespan.Proofs.Machine
import Lifespan.Proofs.Numeric.Tracking
import Lifespan.Proofs.Octagon.PinnedArithmetic
import Lifespan.Proofs.Operations

namespace Lifespan

theorem Interval.refutes_point {x : Int} {r : Relation} : (point x).refutes r = true ↔
    ¬ r.Holds x := by
  cases r with
  | ge =>
    simp only [refutes, atMost, point, Option.any_some, decide_eq_true_eq, Relation.Holds]
    omega
  | gt => simp [refutes, atMost, point, Relation.Holds]
  | eq => exact entails_point (r := .ne)
  | ne => simp [refutes, point, Relation.Holds]

section Points

variable {n : Nat} {p : Fin n → Int} {f : Linear n} {r : Relation}

theorem Linear.Fits.offset {c : Int} (h : f.Fits p) (hc : FitsIn int128Limit (f.eval p + c)) :
    (f.offset c).Fits p where
  products := h.products
  sums := h.sums
  total := by rwa [eval_offset]

/-- A sum of 64-bit integers fits in 128 bits. -/
theorem FitsIn.add {v c : Int} (h : FitsIn int64Limit v) (hc : FitsIn int64Limit c) :
    FitsIn int128Limit (v + c) := by
  have hwide : 2 * int64Limit < int128Limit := by decide
  obtain ⟨hlow, hhigh⟩ := h
  obtain ⟨hclow, hchigh⟩ := hc
  constructor <;> omega

theorem Linear.fits_ofConst {c : Int} (h : FitsIn int128Limit c) :
    (ofConst c : Linear n).Fits p := by
  have hnone : (ofConst c : Linear n).summands = [] := summands_ofConst c
  refine ⟨?_, ?_, by rwa [eval_ofConst]⟩
  · simp [hnone]
  · rw [hnone]
    intro l hl
    obtain rfl := List.mem_singleton.mp hl
    exact (by decide : FitsIn int128Limit 0)

/-- No checked operation overflows where the constraint is compared with zero. An equation is
compared from both sides. -/
def Constraint.Fits (c : Constraint (Fin n)) (p : Fin n → Int) : Prop :=
  ∀ f ∈ c.term.linear?, f.Fits p ∧ (c.relation = .eq → f.negate.Fits p)

instance (c : Constraint (Fin n)) (p : Fin n → Int) : Decidable (c.Fits p) :=
  inferInstanceAs
    (Decidable (∀ f ∈ c.term.linear?, f.Fits p ∧ (c.relation = .eq → f.negate.Fits p)))

namespace Matrix

variable {m : Matrix n}

/-- Nothing can be added to what a single point satisfies. -/
theorem Refines.eq_pinned (h : m.Refines (pinned p .univ)) (hp : m.Point p) :
    m = pinned p .univ := by
  apply ext_bounds
  intro i j c
  refine ⟨fun hc => ?_, h i j c⟩
  rw [Bounds, get_pinned_of_mem (Finset.mem_univ _) (Finset.mem_univ _), Bound.finite_le_finite]
  exact hp.le_of_bounds hc

theorem addNonneg_pinned_of_nonneg (h : 0 ≤ f.eval p) :
    (pinned p .univ).addNonneg f = some (pinned p .univ) := by
  obtain ⟨k, hk, hkp⟩ := (point_pinned p .univ).addNonneg h
  rw [hk, (refines_of_addNonneg hk).eq_pinned hkp]

theorem addNonneg_pinned_of_neg (hf : f.Fits p) (h : f.eval p < 0) :
    (pinned p .univ).addNonneg f = none := by
  rw [addNonneg, range_pinned (fun _ _ => Finset.mem_univ _) hf]
  exact if_pos ((Interval.refutes_point (r := .ge)).mpr (Int.not_le.mpr h))

theorem addLinear_pinned_of_not_holds (hf : f.Fits p) (hnegate : r = .eq → f.negate.Fits p)
    (hvalue : FitsIn int64Limit (f.eval p)) (h : ¬ r.Holds (f.eval p)) :
    (pinned p .univ).addLinear f r = none := by
  cases r with
  | ge => exact addNonneg_pinned_of_neg hf (Int.not_le.mp h)
  | gt =>
    apply addNonneg_pinned_of_neg (hf.offset (hvalue.add (by decide)))
    rw [Linear.eval_offset]
    change ¬ 0 < f.eval p at h
    omega
  | eq =>
    change ((pinned p .univ).addNonneg f).bind (·.addNonneg f.negate) = none
    by_cases hneg : f.eval p < 0
    · rw [addNonneg_pinned_of_neg hf hneg]
      rfl
    · -- one side holds and adds nothing, so the other is refuted at the same matrix
      rw [addNonneg_pinned_of_nonneg (Int.not_lt.mp hneg), Option.bind_some]
      apply addNonneg_pinned_of_neg (hnegate rfl)
      rw [Linear.eval_negate]
      change ¬ f.eval p = 0 at h
      omega
  | ne =>
    have hzero : f.eval p = 0 := not_not.mp h
    rw [addLinear, range_pinned (fun _ _ => Finset.mem_univ _) hf, hzero]
    exact if_pos rfl

end Matrix

namespace Octagon

variable {s a b : Octagon n} {c : Constraint (Fin n)}

namespace Pins

theorem same {S : Finset (Fin n)} (ha : a.Pins p S) (hb : b.Pins p S) : a.same b = true :=
  decide_eq_true (ha.closure.trans hb.closure.symm)

theorem meet_of_holds (h : s.Pins p .univ) (hc : c.Holds p) : (s.meet c).Pins p .univ := by
  have hpoint : s.Point p := (point_of_closure? h.closure).mpr (Matrix.point_pinned p .univ)
  obtain ⟨k, hk, hkp⟩ := point_iff_closure?.mp (hpoint.meet hc)
  refine ⟨?_, h.moderate⟩
  rw [hk, (refines_of_meet h.closure hk).eq_pinned hkp]

theorem meet_of_not_holds (h : s.Pins p .univ) (hsteps : c.term.StepsFit p) (hfits : c.Fits p)
    (hvalue : FitsIn int64Limit (c.term.eval p)) (hc : ¬ c.Holds p) : s.meet c = empty := by
  rw [meet, h.closure]
  dsimp only
  cases hf : c.term.linear? with
  | none =>
    dsimp only
    rw [Matrix.termRange_pinned (fun _ _ => Finset.mem_univ _) hsteps]
    exact if_pos (Interval.refutes_point.mpr hc)
  | some f =>
    obtain ⟨hform, hnegate⟩ := hfits f hf
    rw [Constraint.Holds, ← Term.eval_linear? p hf] at hc
    rw [← Term.eval_linear? p hf] at hvalue
    dsimp only
    rw [Matrix.addLinear_pinned_of_not_holds hform hnegate hvalue hc]

end Pins

end Octagon

end Points

/-- Only variables with a value are evaluated. -/
theorem Term.exists_of_eval? {α : Type} {t : Term α} {q : α → Option Int} {v : Int}
    (h : t.eval? q = some v) :
    ∀ x ∈ t.vars, ∃ c, q x = some c := by
  induction t generalizing v with
  | const c => simp [vars]
  | var x =>
    intro y hy
    obtain rfl := List.mem_singleton.mp hy
    exact ⟨v, h⟩
  | add l r ihl ihr | sub l r ihl ihr | mul l r ihl ihr =>
    simp only [eval?, Option.bind_eq_bind, Option.bind_eq_some_iff] at h
    obtain ⟨a, ha, b, hb, -⟩ := h
    intro x hx
    exact (List.mem_append.mp hx).elim (ihl ha x) (ihr hb x)

namespace Environment

variable {env : Environment} {p : String → Int} {t : Term String}
    {u : Term (Fin env.size)} {v : Int}

/-- The values of the variables of the environment, and of no others. -/
def lookup (env : Environment) (p : String → Int) (x : String) : Option Int :=
  if x ∈ env.vars then some (p x) else none

theorem lookup_eq_some {x : String} {c : Int} (h : env.lookup p x = some c) :
    x ∈ env.vars ∧ p x = c :=
  Option.ite_none_right_eq_some.mp h |>.imp_right Option.some.inj

theorem eval_of_lookup (h : t.eval? (env.lookup p) = some v) : t.eval p = v :=
  Term.eval_of_eval? (fun _ _ hx => (lookup_eq_some hx).2) h

theorem mem_of_lookup (h : t.eval? (env.lookup p) = some v) : ∀ x ∈ t.vars, x ∈ env.vars := by
  intro x hx
  obtain ⟨c, hc⟩ := Term.exists_of_eval? h x hx
  exact (lookup_eq_some hc).1

/-- What fits in 64 bits at every step fits in 128. -/
theorem stepsFit_of_lookup (h : t.eval? (env.lookup p) = some v)
    (hu : t.resolve env.index = .ok u) :
    u.StepsFit (env.point p) := by
  induction t generalizing u v with
  | const c =>
    obtain rfl := Except.ok.inj hu
    trivial
  | var x =>
    obtain ⟨i, -, hu⟩ := Except.bind_eq_ok.mp hu
    obtain rfl := Except.pure_eq_ok.mp hu
    trivial
  | add l r ihl ihr | sub l r ihl ihr | mul l r ihl ihr =>
    simp only [Term.eval?, Option.bind_eq_bind, Option.bind_eq_some_iff] at h
    obtain ⟨a, ha, b, hb, h⟩ := h
    obtain ⟨l', hl, hu⟩ := Except.bind_eq_ok.mp hu
    obtain ⟨r', hr, hu⟩ := Except.bind_eq_ok.mp hu
    obtain rfl := Except.pure_eq_ok.mp hu
    refine ⟨ihl ha hl, ihr hb hr, ?_⟩
    rw [eval_resolve hl, eval_resolve hr, eval_of_lookup ha, eval_of_lookup hb]
    exact FitsIn.wide (Option.ite_none_right_eq_some.mp h).1

theorem resolve_constraint {c : Constraint String} (hu : c.term.resolve env.index = .ok u) :
    c.resolve env.index = .ok ⟨u, c.relation⟩ :=
  Except.bind_eq_ok.mpr ⟨u, hu, rfl⟩

theorem fits_of_lookup {c : Constraint String} (h : c.term.eval? (env.lookup p) = some v)
    (hfits : ∀ c' ∈ (c.resolve env.index).toOption, c'.Fits (env.point p)) : env.Fits p c.term := by
  intro u hu
  rw [resolve_constraint hu] at hfits
  unfold Term.Fits
  cases hf : u.linear? with
  | none => exact stepsFit_of_lookup h hu
  | some f => exact (hfits _ rfl f hf).1

theorem fits_const (p : String → Int) {c : Int} (h : FitsIn int64Limit c) :
    env.Fits p (.const c) := by
  intro u hu
  obtain rfl := Except.ok.inj hu
  exact Linear.fits_ofConst h.wide

theorem Knows.pins_univ {d : Octagon env.size} {K : Set String} (h : env.Knows d p K)
    (hK : ∀ x ∈ env.vars, x ∈ K) : d.Pins (env.point p) .univ := by
  obtain ⟨S, hpins, hS⟩ := h
  obtain rfl : S = .univ := Finset.eq_univ_iff_forall.mpr fun i =>
    hS _ (hK _ (List.get_mem env.vars i)) i (index_eq_ok.mpr rfl)
  exact hpins

end Environment

namespace AbstractState

variable {env : Environment} {p : String → Int}

/-- The state in which every variable was assigned its value. -/
def atPoint (env : Environment) (p : String → Int) : Except Error AbstractState :=
  env.vars.foldlM (fun s x => s.assign x (.const (p x))) (.top env)

/-- The same where overflows go unnoticed. -/
def atPointWrapped (env : Environment) (p : String → Int) : Except Error AbstractState :=
  env.vars.foldlM (fun s x => Traced.wrapped <$> s.assignTraced x (.const (p x))) (.top env)

/-- Assigning 64-bit integers overflows nowhere. -/
theorem foldlM_assign_wrapped {l : List String} (hp : ∀ x ∈ l, FitsIn int64Limit (p x))
    (hl : ∀ x ∈ l, x ∈ env.vars) {S : Finset (Fin env.size)}
    (hS : Matrix.Moderate (env.point p) S) :
    l.foldlM (fun s x => Traced.wrapped <$> s.assignTraced x (.const (p x)))
      (⟨env, .tight (.pinned (env.point p) S)⟩ : AbstractState) =
    l.foldlM (fun s x => s.assign x (.const (p x))) ⟨env, .tight (.pinned (env.point p) S)⟩ := by
  induction l generalizing S with
  | nil => rfl
  | cons x l ih =>
    obtain ⟨i, hi⟩ := Environment.exists_index (hl x List.mem_cons_self)
    have hself : Function.update (env.point p) i (p x) = env.point p := by
      rw [Environment.point_update hi, Function.update_eq_self]
    have hmoderate : Matrix.Moderate (env.point p) (insert i S) := by
      intro j hj
      rcases Finset.mem_insert.mp hj with rfl | hj
      · rw [Environment.point, Environment.get_of_index hi]
        exact hp x List.mem_cons_self
      · exact hS j hj
    obtain ⟨hrange, hvalue⟩ := Octagon.assignTraced_const (p := env.point p) (x := i) (c := p x)
      (S := S) (by rwa [hself])
    rw [hself] at hvalue
    have hrun : assignTraced ⟨env, .tight (.pinned (env.point p) S)⟩ x (.const (p x)) =
        .ok (AbstractState.mk env <$>
          (Octagon.tight (.pinned (env.point p) S)).assignTraced i (.const (p x))) := by
      rw [assignTraced, Environment.assignTraced, hi]
      rfl
    have hexact : assign ⟨env, .tight (.pinned (env.point p) S)⟩ x (.const (p x)) =
        .ok ⟨env, .tight (.pinned (env.point p) (insert i S))⟩ := by
      rw [← map_value_assignTraced, hrun, ← hvalue]
      exact congrArg Except.ok (Traced.value_map _ _)
    have hwrapped : Traced.wrapped <$>
        assignTraced ⟨env, .tight (.pinned (env.point p) S)⟩ x (.const (p x)) =
        .ok ⟨env, .tight (.pinned (env.point p) (insert i S))⟩ := by
      rw [hrun, ← hvalue]
      have hmap := (Traced.inRange_map (g := AbstractState.mk env)).mpr hrange
      exact congrArg Except.ok (hmap.wrapped.trans (Traced.value_map _ _))
    rw [List.foldlM_cons, List.foldlM_cons, hexact, hwrapped]
    exact ih (fun y hy => hp y (List.mem_cons_of_mem x hy))
      (fun y hy => hl y (List.mem_cons_of_mem x hy)) hmoderate

theorem atPointWrapped_eq (hp : ∀ x ∈ env.vars, FitsIn int64Limit (p x)) :
    atPointWrapped env p = atPoint env p := by
  have htop : AbstractState.top env = ⟨env, .tight (.pinned (env.point p) ∅)⟩ := by
    rw [Matrix.pinned_empty]
    rfl
  rw [atPointWrapped, atPoint, htop]
  exact foldlM_assign_wrapped hp (fun _ hx => hx) fun _ hi => absurd hi (Finset.notMem_empty _)

theorem same_mk (a b : Octagon env.size) : same ⟨env, a⟩ ⟨env, b⟩ = a.same b := dif_pos rfl

/-- One assignment after the other, more is known. -/
theorem exists_assign_values {l : List String} (hp : ∀ x ∈ l, FitsIn int64Limit (p x))
    (hl : ∀ x ∈ l, x ∈ env.vars) {d : Octagon env.size} {K : Set String} (h : env.Knows d p K) :
    ∃ d', l.foldlM (fun s x => s.assign x (.const (p x)))
    (⟨env, d⟩ : AbstractState) = .ok ⟨env, d'⟩ ∧
      env.Knows d' p (K ∪ {x | x ∈ l}) := by
  induction l generalizing d K with
  | nil => exact ⟨d, rfl, h.mono (by simp)⟩
  | cons x l ih =>
    obtain ⟨e, he⟩ := Environment.exists_assign d (u := .const (p x)) (hl x List.mem_cons_self)
      (by simp [Term.vars])
    have hx := hp x List.mem_cons_self
    have hknows := h.assign (by simp [Term.vars]) (Environment.fits_const p hx) hx he
    rw [Term.eval, Function.update_eq_self] at hknows
    obtain ⟨d', hd', hall⟩ := ih (fun y hy => hp y (List.mem_cons_of_mem x hy))
      (fun y hy => hl y (List.mem_cons_of_mem x hy)) hknows
    refine ⟨d', ?_, hall.mono fun y hy => ?_⟩
    · rw [List.foldlM_cons]
      exact Except.bind_eq_ok.mpr ⟨⟨env, e⟩, Except.bind_eq_ok.mpr ⟨e, he, rfl⟩, hd'⟩
    · rcases hy with hy | hy
      · exact .inl (.inr hy)
      · exact (List.mem_cons.mp hy).imp (fun h => .inl h) id

theorem exists_atPoint (hp : ∀ x ∈ env.vars, FitsIn int64Limit (p x)) :
    ∃ d, atPoint env p = .ok ⟨env, d⟩ ∧ d.Pins (env.point p) .univ := by
  obtain ⟨d, hd, hknows⟩ := exists_assign_values hp (fun _ hx => hx) (Environment.knows_top env p)
  exact ⟨d, hd, hknows.pins_univ fun _ hx => .inr hx⟩

section Known

variable {d : Octagon env.size} {c : Constraint String} {v : Int}

theorem satisfies_of_pins (h : d.Pins (env.point p) .univ)
    (hv : c.term.eval? (env.lookup p) = some v) (hfits : env.Fits p c.term) :
    satisfies ⟨env, d⟩ c = .ok (decide (c.relation.Holds v)) := by
  obtain ⟨u, hu⟩ := Environment.exists_resolve (Environment.mem_of_lookup hv)
  have hdecided : d.satisfies ⟨u, c.relation⟩ = decide (c.relation.Holds v) := by
    rw [Bool.eq_iff_iff, h.satisfies_iff (fun _ _ => Finset.mem_univ _) (hfits u hu),
      decide_eq_true_iff, Constraint.Holds, Environment.eval_resolve hu,
        Environment.eval_of_lookup hv]
  rw [← hdecided]
  exact Except.bind_eq_ok.mpr ⟨_, Environment.resolve_constraint hu, rfl⟩

theorem meet_of_pins (h : d.Pins (env.point p) .univ) (hv : c.term.eval? (env.lookup p) = some v)
    (hvalue : FitsIn int64Limit v)
    (hfits : ∀ c' ∈ (c.resolve env.index).toOption, c'.Fits (env.point p)) :
    ∃ e, meet ⟨env, d⟩ c = .ok ⟨env, e⟩ ∧ (c.relation.Holds v → e.Pins (env.point p) .univ) ∧
      (¬ c.relation.Holds v → e = .empty) := by
  obtain ⟨u, hu⟩ := Environment.exists_resolve (Environment.mem_of_lookup hv)
  have hresolve := Environment.resolve_constraint hu
  have heval : u.eval (env.point p) = v := by
    rw [Environment.eval_resolve hu, Environment.eval_of_lookup hv]
  refine ⟨d.meet ⟨u, c.relation⟩, ?_, fun hholds => h.meet_of_holds ?_, fun hfails => ?_⟩
  · exact Except.bind_eq_ok.mpr ⟨_, Except.bind_eq_ok.mpr ⟨_, hresolve, rfl⟩, rfl⟩
  · rwa [Constraint.Holds, heval]
  · refine h.meet_of_not_holds (Environment.stepsFit_of_lookup hv hu) (hfits _ ?_) ?_ ?_
    · rw [hresolve]
      exact Option.mem_some_self _
    · rwa [heval]
    · rwa [Constraint.Holds, heval]

theorem assign_of_pins (h : d.Pins (env.point p) .univ) (hv : c.term.eval? (env.lookup p) = some v)
    (hvalue : FitsIn int64Limit v) (hfits : env.Fits p c.term) {x : String} (hx : x ∈ env.vars) :
    ∃ e, assign ⟨env, d⟩ x c.term = .ok ⟨env, e⟩ ∧
    e.Pins (env.point (Function.update p x v)) .univ := by
  have heval := Environment.eval_of_lookup hv
  have hknows : env.Knows d p .univ := ⟨.univ, h, fun _ _ _ _ => Finset.mem_univ _⟩
  obtain ⟨e, he⟩ := Environment.exists_assign d hx (Environment.mem_of_lookup hv)
  have hafter := hknows.assign (fun _ _ => trivial) hfits (by rwa [heval]) he
  rw [heval] at hafter
  exact ⟨e, Except.bind_eq_ok.mpr ⟨e, he, rfl⟩, hafter.pins_univ fun _ _ => .inr trivial⟩

end Known

/-- `x - 1 - 2 * (2 ^ 126 * (x - 1)) + 3 * y ≥ 0`. -/
def overflowingSpread : Constraint String :=
  let x := .sub (.var "x") (.const 1)
  let far := .mul (.mul (.mul x (.const 0x4000000000000000)) (.const 0x4000000000000000)) (.const 4)
  ⟨.add (.sub (.sub x far) far) (.mul (.const 3) (.var "y")), .ge⟩

end AbstractState

end Lifespan
