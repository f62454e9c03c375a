import Lifespan.Proofs.Machine
import Lifespan.Proofs.Octagon.Join
import Lifespan.Proofs.PointStates

namespace Lifespan

namespace Term

variable {α β ε : Type} {t l r : Term α} {a b : Int}

/-- Every constant of the term is a signed 64-bit integer. -/
def ConstsFit : Term α → Prop
  | const c => FitsIn int64Limit c
  | var _ => True
  | add l r | sub l r | mul l r => l.ConstsFit ∧ r.ConstsFit

instance decidableConstsFit : (t : Term α) → Decidable t.ConstsFit
  | const c => inferInstanceAs (Decidable (FitsIn int64Limit c))
  | var _ => isTrue trivial
  | add l r | sub l r | mul l r =>
    have := decidableConstsFit l
    have := decidableConstsFit r
    inferInstanceAs (Decidable (_ ∧ _))

theorem constant?_fitsIn (ht : t.ConstsFit) (h : t.constant? = some a) : FitsIn int64Limit a := by
  cases t with
  | const c =>
    obtain rfl := Option.some.inj h
    exact ht
  | var x => cases h
  | add l r | sub l r | mul l r =>
    simp only [constant?, eval?, Option.bind_eq_bind, Option.bind_eq_some_iff] at h
    obtain ⟨p, -, q, -, h⟩ := h
    obtain ⟨hfits, rfl⟩ := Option.ite_none_right_eq_some.mp h |>.imp_right Option.some.inj
    exact hfits

end Term

namespace Linear

variable {n : Nat} {a b k : Int}

theorem fits_of_fitsIn (h : FitsIn int128Limit a) : fits a = true := by
  rw [fits, signed?_of_fitsIn h]
  rfl

theorem combine_ofConst (hb : FitsIn int128Limit (b * k)) (hsum : FitsIn int128Limit (a + b * k)) :
    (ofConst a : Linear n).combine k (ofConst b) = some (ofConst (a + b * k)) := by
  have hzero : fits 0 = true := by decide
  have hcoeffs : (Vector.ofFn fun _ => 0 : Vector Int n) = Vector.replicate n 0 := by
    apply Vector.ext_get
    simp
  simp [combine, ofConst, hzero, hcoeffs, fits_of_fitsIn hb, fits_of_fitsIn hsum]

theorem add_ofConst (hb : FitsIn int64Limit b) (hsum : FitsIn int64Limit (a + b)) :
    (ofConst a : Linear n).combine 1 (ofConst b) = some (ofConst (a + b)) := by
  simpa using combine_ofConst (k := 1) (by simpa using hb.wide) (by simpa using hsum.wide)

theorem sub_ofConst (hb : FitsIn int64Limit b) (hdiff : FitsIn int128Limit (a - b)) :
    (ofConst a : Linear n).combine (-1) (ofConst b) = some (ofConst (a - b)) := by
  have hneg : FitsIn int128Limit (b * -1) := by
    have hwide : int64Limit < int128Limit := by decide
    obtain ⟨hlow, hhigh⟩ := hb
    constructor <;> omega
  simpa [sub_eq_add_neg] using combine_ofConst hneg (by simpa [sub_eq_add_neg] using hdiff)

theorem product_ofConst (h : FitsIn int64Limit (a * b)) :
    (ofConst a : Linear n).product (ofConst b) = some (ofConst (a * b)) := by
  have hzero : fits 0 = true := by decide
  have hconst : (ofConst a : Linear n).isConstant = true := by
    rw [isConstant, summands_ofConst]; rfl
  rw [mul_comm] at h ⊢
  rw [product, if_pos hconst]
  simp [scale, ofConst, hzero, fits_of_fitsIn h.wide]

end Linear

/-- A term that folds is resolved in any environment, and its linear form is the constant it
folds to. -/
theorem Term.exists_linear?_of_constant? {α ε : Type} {n : Nat} {t : Term α} {a : Int}
    (f : α → Except ε (Fin n)) (ht : t.ConstsFit) (h : t.constant? = some a) :
    ∃ u, t.resolve f = .ok u ∧ u.linear? = some (.ofConst a) := by
  induction t generalizing a with
  | const c =>
    obtain rfl := Option.some.inj h
    exact ⟨.const c, rfl, rfl⟩
  | var x => cases h
  | add l r ihl ihr | sub l r ihl ihr | mul l r ihl ihr =>
    have hvalue := constant?_fitsIn ht h
    simp only [constant?, eval?, Option.bind_eq_bind, Option.bind_eq_some_iff] at h
    obtain ⟨p, hp, q, hq, h⟩ := h
    obtain rfl := signed?_eq_some h
    have hright := constant?_fitsIn ht.2 hq
    have hwide := hvalue.wide
    obtain ⟨l', hl, hlinear⟩ := ihl ht.1 hp
    obtain ⟨r', hr, hrlinear⟩ := ihr ht.2 hq
    refine ⟨_, Except.bind_eq_ok.mpr ⟨l', hl, Except.bind_eq_ok.mpr ⟨r', hr, rfl⟩⟩, ?_⟩
    simp (disch := assumption) only [linear?, hlinear, hrlinear, Option.bind_eq_bind,
      Option.bind_some, Linear.add_ofConst, Linear.sub_ofConst, Linear.product_ofConst]

namespace Environment

variable {env : Environment} {s : Octagon env.size} {l r : Term String} {a b : Int}

theorem entailsGe_of_constants (ha : l.constant? = some a) (hb : r.constant? = some b) :
    env.entailsGe s l r = .ok (decide (b ≤ a)) := by
  rw [entailsGe, ha, hb]

theorem entailsGe_of_not_constants (h : ¬ ∃ a b, l.constant? = some a ∧ r.constant? = some b) :
    env.entailsGe s l r = env.satisfies s ⟨.sub l r, .ge⟩ := by
  unfold entailsGe
  split
  case h_1 a b ha hb => exact absurd ⟨a, b, ha, hb⟩ h
  case h_2 => rfl

/-- Between constants a state that has a closed matrix gives their order, and one that has none
gives `true`. -/
theorem satisfies_of_constants (hl : l.ConstsFit) (hr : r.ConstsFit) (ha : l.constant? = some a)
    (hb : r.constant? = some b) :
    env.satisfies s ⟨.sub l r, .ge⟩ = .ok (decide (s.closure? = none ∨ b ≤ a)) := by
  obtain ⟨l', hl', hlinear⟩ := Term.exists_linear?_of_constant? env.index hl ha
  obtain ⟨r', hr', hrlinear⟩ := Term.exists_linear?_of_constant? env.index hr hb
  have hright := Term.constant?_fitsIn hr hb
  have hdiff : |a - b| < int128Limit := by
    have hwide : 2 * int64Limit < int128Limit := by decide
    obtain ⟨hlow, hhigh⟩ := Term.constant?_fitsIn hl ha
    obtain ⟨hlow', hhigh'⟩ := hright
    exact abs_lt.mpr ⟨by omega, by omega⟩
  have hform : (Term.sub l' r').linear? = some (.ofConst (a - b)) := by
    simp only [Term.linear?, hlinear, hrlinear, Option.bind_eq_bind, Option.bind_some,
      Linear.sub_ofConst hright (fitsIn_of_abs_lt hdiff)]
  have hresolve : (Term.sub l r).resolve env.index = .ok (.sub l' r') :=
    Except.bind_eq_ok.mpr ⟨l', hl', Except.bind_eq_ok.mpr ⟨r', hr', rfl⟩⟩
  have hanswer : s.satisfies ⟨.sub l' r', .ge⟩ = decide (s.closure? = none ∨ b ≤ a) := by
    unfold Octagon.satisfies
    cases s.closure? with
    | none => rfl
    | some m =>
      have hrange : m.rangeOf (.sub l' r') = .point (a - b) := by
        rw [Matrix.rangeOf, hform]
        exact m.range_of_constant (Linear.summands_ofConst _) hdiff
      dsimp only
      rw [hrange, Bool.eq_iff_iff, Interval.entails_point]
      simp [Relation.Holds]
  rw [← hanswer]
  exact Except.bind_eq_ok.mpr ⟨_, resolve_constraint hresolve, rfl⟩

/-- Comparing constants directly gives the answer of the state, unless the state is empty and the
constants are in the wrong order: then every constraint is satisfied, but the answer is `false`.
What is answered `true` without an overflow holds at all points. -/
theorem entailsGe_eq_satisfies_iff (env : Environment) (s : Octagon env.size) (l r : Term String)
    (hl : l.ConstsFit) (hr : r.ConstsFit) :
    (env.entailsGe s l r = env.satisfies s ⟨.sub l r, .ge⟩ ↔
      ¬ (s.closure? = none ∧ ∃ a b, l.constant? = some a ∧ r.constant? = some b ∧ a < b)) ∧
    (∀ a b, l.constant? = some a → r.constant? = some b →
      env.entailsGe s l r = .ok (decide (b ≤ a)) ∧
      env.satisfies s ⟨.sub l r, .ge⟩ = .ok (decide (s.closure? = none ∨ b ≤ a))) ∧
    ∀ run, env.entailsGeTraced s l r = .ok run → run.InRange →
      env.entailsGe s l r = .ok run.wrapped ∧ run.checked? = some run.wrapped ∧
      (run.wrapped = true → ∀ v, s.Point (env.point v) → r.eval v ≤ l.eval v) := by
  refine ⟨?_, fun a b ha hb => ⟨entailsGe_of_constants ha hb, satisfies_of_constants hl hr ha hb⟩,
    fun run hrun hrange => ?_⟩
  · by_cases hconst : ∃ a b, l.constant? = some a ∧ r.constant? = some b
    · obtain ⟨a, b, ha, hb⟩ := hconst
      rw [entailsGe_of_constants ha hb, satisfies_of_constants hl hr ha hb]
      simp [ha, hb]
    · exact iff_of_true (entailsGe_of_not_constants hconst) fun h => hconst (by
        obtain ⟨-, a, b, ha, hb, -⟩ := h
        exact ⟨a, b, ha, hb⟩)
  · have hanswer : env.entailsGe s l r = .ok run.wrapped :=
      (env.map_value_entailsGeTraced s l r).symm.trans (hrange.map_value hrun)
    refine ⟨hanswer, hrange.wrapped ▸ hrange.checked?, fun htrue v hv => ?_⟩
    rw [htrue] at hanswer
    exact le_of_entailsGe hv hanswer

/-- The two ends of the 64-bit range, which are further apart than 64 bits can tell. -/
theorem entailsGe_eq_satisfies_iff_farApart :
    (Term.const (-int64Limit) : Term String).ConstsFit ∧
    (Term.const (int64Limit - 1) : Term String).ConstsFit ∧
    AbstractState.plane.entailsGe Octagon.segment (.const (-int64Limit)) (.const (int64Limit - 1)) =
      AbstractState.plane.satisfies Octagon.segment
      ⟨.sub (.const (-int64Limit)) (.const (int64Limit - 1)), .ge⟩ ∧
    AbstractState.plane.entailsGe Octagon.segment (.const (-int64Limit))
    (.const (int64Limit - 1)) = .ok false := by
  have hlow : (Term.const (-int64Limit) : Term String).ConstsFit := by decide
  have hhigh : (Term.const (int64Limit - 1) : Term String).ConstsFit := by decide
  obtain ⟨hiff, hconstants, -⟩ :=
    entailsGe_eq_satisfies_iff AbstractState.plane Octagon.segment _ _ hlow hhigh
  have hpoints : Octagon.segment.closure? ≠ none := by decide +kernel
  exact ⟨hlow, hhigh, hiff.mpr fun h => hpoints h.1, (hconstants _ _ rfl rfl).1⟩

/-- At the origin no branch on `x > 0` is taken, so every constraint is satisfied behind it, but
`3 ≥ 5` is answered with `false`. -/
theorem exists_satisfied_not_entailed :
    ∃ s : Octagon AbstractState.plane.size, s = Octagon.origin.meet ⟨.var Octagon.xVar, .gt⟩ ∧
      AbstractState.plane.satisfies s ⟨.sub (.const 3) (.const 5), .ge⟩ = .ok true ∧
      AbstractState.plane.entailsGe s (.const 3) (.const 5) = .ok false := by
  refine ⟨_, rfl, ?_, rfl⟩
  have hempty : (Octagon.origin.meet ⟨.var Octagon.xVar, .gt⟩).closure? = none := by decide +kernel
  have hthree : (Term.const 3 : Term String).ConstsFit := by decide
  have hfive : (Term.const 5 : Term String).ConstsFit := by decide
  refine (satisfies_of_constants hthree hfive rfl rfl).trans
    (congrArg Except.ok (decide_eq_true ?_))
  exact .inl hempty

end Environment

end Lifespan
