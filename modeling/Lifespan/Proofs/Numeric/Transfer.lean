import Lifespan.Analysis
import Lifespan.Proofs.Logged

namespace Lifespan

open Dataflow

namespace Environment

variable {env : Environment} {s : Octagon env.size}

theorem meet_empty {c : Constraint String} (h : env.meet .empty c = .ok s) : s = .empty := by
  obtain ⟨c', -, h⟩ := Except.bind_eq_ok.mp h
  exact (Except.pure_eq_ok.mp h).symm

theorem assign_empty {x : String} {t : Term String} (h : env.assign .empty x t = .ok s) :
    s = .empty := by
  obtain ⟨i, -, h⟩ := Except.bind_eq_ok.mp h
  obtain ⟨t', -, h⟩ := Except.bind_eq_ok.mp h
  exact (Except.pure_eq_ok.mp h).symm

end Environment

namespace Numeric

variable {env : Environment} {d d' s : Octagon env.size}

section Instructions

variable {n : Nat} {init : Option Initializer} {onCycle : Bool} {out : Outflow (Octagon env.size)}

theorem transfer_assign {target : Place} {value : Expr} :
    transfer env init onCycle (.assign target value : Instr n) d = .ok out ↔
      ∃ d', assign env target value d = .ok d' ∧ out = ⟨some d', none⟩ := by
  refine Except.bind_eq_ok.trans (exists_congr fun d' => and_congr_right fun _ => ?_)
  rw [Except.pure_eq_ok, eq_comm]

theorem transfer_branch {cond : Expr} {target : Fin n} :
    transfer env init onCycle (.branch cond target) d = .ok out ↔
      ∃ br passed taken, cond.branching = .ok br ∧ env.meet d br.passed = .ok passed ∧
        env.meet d br.taken = .ok taken ∧ out = ⟨some passed, some taken⟩ := by
  constructor
  · intro h
    obtain ⟨br, hbr, h⟩ := Except.bind_eq_ok.mp h
    obtain ⟨passed, hpassed, h⟩ := Except.bind_eq_ok.mp h
    obtain ⟨taken, htaken, h⟩ := Except.bind_eq_ok.mp h
    exact ⟨br, passed, taken, hbr, hpassed, htaken, (Except.pure_eq_ok.mp h).symm⟩
  · rintro ⟨br, passed, taken, hbr, hpassed, htaken, rfl⟩
    refine Except.bind_eq_ok.mpr ⟨br, hbr, Except.bind_eq_ok.mpr ⟨passed, hpassed, ?_⟩⟩
    exact Except.bind_eq_ok.mpr ⟨taken, htaken, rfl⟩

theorem transfer_call {c : Call} : transfer env init onCycle (.call c : Instr n) d = .ok out ↔
    ∃ d', call env init onCycle c d = .ok d' ∧ out = ⟨some d', none⟩ := by
  refine Except.bind_eq_ok.trans (exists_congr fun d' => and_congr_right fun _ => ?_)
  rw [Except.pure_eq_ok, eq_comm]

end Instructions

/-- What an assignment that is analyzed can be. -/
theorem assign_cases {target : Place} {value : Expr} (h : assign env target value d = .ok d') :
    ∃ x, target = .var x ∧ (x.ty.isReference = true ∧ d' = d ∨
      x.ty = .int ∧ (∃ p, value = .param p) ∧ d' = d ∨
      x.ty = .int ∧ ∃ t, value.term = .ok t ∧ env.assign d x.name t = .ok d') := by
  unfold assign assignWith at h
  cases target with
  | field | staticField | element => cases h
  | var x =>
    refine ⟨x, rfl, ?_⟩
    dsimp only at h
    split at h
    case h_1 | h_2 => cases h
    case h_3 hty => exact .inl ⟨by rw [hty]; rfl, (Except.ok.inj h).symm⟩
    case h_4 p hty => exact .inr (.inl ⟨hty, ⟨p, rfl⟩, (Except.ok.inj h).symm⟩)
    case h_5 hty _ =>
      obtain ⟨t, ht, h⟩ := Except.bind_eq_ok.mp h
      exact .inr (.inr ⟨hty, t, ht, h⟩)

/-- What a call that is analyzed can be. -/
theorem call_cases {init : Option Initializer} {onCycle : Bool} {c : Call}
    (h : call env init onCycle c d = .ok d') :
    c.kind = .virtual ∧ d' = d ∨ init = none ∧ d' = d ∨
      ∃ i, init = some i ∧ construct env i onCycle d = .ok d' := by
  unfold call callWith at h
  split at h
  case isTrue hkind =>
    exact .inl ⟨hkind, (Except.ok.inj h).symm⟩
  case isFalse =>
    split at h
    · split at h
      · exact .inr (.inl ⟨rfl, (Except.ok.inj h).symm⟩)
      · exact .inr (.inr ⟨_, rfl, h⟩)
    · cases h

theorem assign_empty {target : Place} {value : Expr} (h : assign env target value .empty = .ok s) :
    s = .empty := by
  obtain ⟨x, rfl, ⟨-, rfl⟩ | ⟨-, -, rfl⟩ | ⟨-, t, -, h⟩⟩ := assign_cases h
  · rfl
  · rfl
  · exact Environment.assign_empty h

theorem construct_empty {i : Initializer} {onCycle : Bool}
    (h : construct env i onCycle .empty = .ok s) : s = .empty := by
  obtain ⟨t, -, h⟩ := Except.bind_eq_ok.mp h
  obtain ⟨assigned, ha, h⟩ := Except.bind_eq_ok.mp h
  obtain rfl := Environment.assign_empty ha
  rw [← Except.pure_eq_ok.mp h]
  cases onCycle <;> rfl

theorem call_empty {init : Option Initializer} {onCycle : Bool} {c : Call}
    (h : call env init onCycle c .empty = .ok s) : s = .empty := by
  rcases call_cases h with ⟨-, rfl⟩ | ⟨-, rfl⟩ | ⟨i, -, h⟩
  · rfl
  · rfl
  · exact construct_empty h

/-- No instruction brings a state about where there was none. -/
theorem transfer_empty {n : Nat} {init : Option Initializer} {onCycle : Bool} {instr : Instr n}
    {out : Outflow (Octagon env.size)} (h : transfer env init onCycle instr .empty = .ok out)
    {e : Edge} (hs : out.on e = some s) : s = .empty := by
  cases instr with
  | assign target value =>
    obtain ⟨t, ht, rfl⟩ := transfer_assign.mp h
    cases e with
    | fall => exact Option.some.inj hs ▸ assign_empty ht
    | branch => cases hs
  | branch cond target =>
    obtain ⟨b, passed, taken, -, hp, ht, rfl⟩ := transfer_branch.mp h
    cases e with
    | fall => exact Option.some.inj hs ▸ Environment.meet_empty hp
    | branch => exact Option.some.inj hs ▸ Environment.meet_empty ht
  | goto target =>
    rw [← Except.ok.inj h] at hs
    cases e with
    | fall => cases hs
    | branch => exact (Option.some.inj hs).symm
  | call c =>
    obtain ⟨t, ht, rfl⟩ := transfer_call.mp h
    cases e with
    | fall => exact Option.some.inj hs ▸ call_empty ht
    | branch => cases hs
  | returnVoid =>
    rw [← Except.ok.inj h] at hs
    cases e with
    | fall => exact (Option.some.inj hs).symm
    | branch => cases hs
  | returnValue value => cases h
  | throwValue value => cases h

end Numeric

end Lifespan
