import Lifespan.Machine
import Lifespan.Proofs.Logged
import Lifespan.Proofs.Octagon.Traced

namespace Lifespan

namespace Traced

variable {α β ε : Type} {attempt : Except ε (Traced α)} {run : Traced α} {a : α}

theorem map_value_bind (attempt : Except ε (Traced α)) (g : α → β) :
    value <$> (attempt >>= fun run => pure (g <$> run)) =
      (value <$> attempt) >>= fun a => pure (g a) := by
  cases attempt with
  | error e => rfl
  | ok run => exact congrArg Except.ok (value_map g run)

/-- What an attempt comes to in exact arithmetic, it gives unless an operation overflows. -/
theorem exists_of_map_value (h : value <$> attempt = .ok a) :
    ∃ run, attempt = .ok run ∧ (run.InRange → run.Gives a) := by
  obtain ⟨run, hrun, rfl⟩ := Except.map_eq_ok.mp h
  exact ⟨run, hrun, fun hrange => hrange.gives⟩

theorem InRange.map_value (hrange : run.InRange) (h : attempt = .ok run) :
    value <$> attempt = .ok run.wrapped := by
  rw [h, hrange.wrapped]
  rfl

end Traced

namespace Environment

variable (env : Environment) (s : Octagon env.size)

theorem map_value_meetTraced (c : Constraint String) :
    Traced.value <$> env.meetTraced s c = env.meet s c := by
  simp only [meetTraced, meet, map_bind, map_pure, Octagon.value_meetTraced]

theorem map_value_assignTraced (x : String) (t : Term String) :
    Traced.value <$> env.assignTraced s x t = env.assign s x t := by
  simp only [assignTraced, assign, map_bind, map_pure, Octagon.value_assignTraced]

theorem map_value_satisfiesTraced (c : Constraint String) :
    Traced.value <$> env.satisfiesTraced s c = env.satisfies s c := by
  simp only [satisfiesTraced, satisfies, map_bind, map_pure, Octagon.value_satisfiesTraced]

theorem map_value_entailsGeTraced (l r : Term String) :
    Traced.value <$> env.entailsGeTraced s l r = env.entailsGe s l r := by
  unfold entailsGeTraced entailsGe
  cases l.constant? with
  | none => exact env.map_value_satisfiesTraced s _
  | some a =>
    cases r.constant? with
    | none => exact env.map_value_satisfiesTraced s _
    | some b => rfl

end Environment

namespace AbstractState

variable (s : AbstractState)

theorem map_value_meetTraced (c : Constraint String) :
    Traced.value <$> s.meetTraced c = s.meet c := by
  rw [meetTraced, Traced.map_value_bind, s.env.map_value_meetTraced]
  rfl

theorem map_value_assignTraced (x : String) (t : Term String) :
    Traced.value <$> s.assignTraced x t = s.assign x t := by
  rw [assignTraced, Traced.map_value_bind, s.env.map_value_assignTraced]
  rfl

theorem map_value_satisfiesTraced (c : Constraint String) :
    Traced.value <$> s.satisfiesTraced c = s.satisfies c :=
  s.env.map_value_satisfiesTraced s.shape c

end AbstractState

namespace Numeric

variable (env : Environment) (s : Octagon env.size)

theorem map_assignWith {β γ : Type} (f : β → γ) (kept : β)
    (store : String → Term String → Except Error β) (target : Place) (value : Expr) :
    f <$> assignWith kept store target value =
      assignWith (f kept) (fun x t => f <$> store x t) target value := by
  unfold assignWith
  cases target with
  | field | staticField | element => rfl
  | var x =>
    dsimp only
    split
    case h_5 => exact map_bind _ _ _
    all_goals rfl

theorem map_callWith {β γ : Type} (f : β → γ) (kept : β)
    (constructed : Initializer → Except Error β) (init : Option Initializer) (c : Call) :
    f <$> callWith kept constructed init c =
      callWith (f kept) (fun i => f <$> constructed i) init c := by
  unfold callWith
  split
  · rfl
  · split
    · cases init <;> rfl
    · rfl

theorem map_value_assignTraced (target : Place) (value : Expr) :
    Traced.value <$> assignTraced env target value s = assign env target value s := by
  rw [assignTraced, map_assignWith]
  simp only [Environment.map_value_assignTraced]
  rfl

theorem map_value_constructTraced (i : Initializer) (onCycle : Bool) :
    Traced.value <$> constructTraced env i onCycle s = construct env i onCycle s := by
  unfold constructTraced construct
  cases i.finish.term with
  | error e => rfl
  | ok t =>
    change Traced.value <$> (env.assignTraced s i.ghost t >>= _) = env.assign s i.ghost t >>= _
    rw [← env.map_value_assignTraced s i.ghost t]
    cases env.assignTraced s i.ghost t with
    | error e => rfl
    | ok run =>
      cases onCycle with
      | false => rfl
      | true =>
        refine congrArg Except.ok ((Traced.value_bind run _).trans ?_)
        exact Octagon.value_joinTraced s run.value

theorem map_value_callTraced (init : Option Initializer) (onCycle : Bool) (c : Call) :
    Traced.value <$> callTraced env init onCycle c s = call env init onCycle c s := by
  rw [callTraced, map_callWith]
  simp only [map_value_constructTraced]
  rfl

/-- Tracing the arithmetic of an instruction does not change what it does. -/
theorem map_value_transferTraced {n : Nat} (init : Option Initializer) (onCycle : Bool)
    (instr : Instr n) :
    Traced.value <$> transferTraced env init onCycle instr s =
      transfer env init onCycle instr s := by
  cases instr with
  | assign target value =>
    unfold transferTraced transfer
    dsimp only
    rw [Traced.map_value_bind, map_value_assignTraced]
  | branch cond target =>
    unfold transferTraced transfer
    dsimp only
    cases cond.branching with
    | error e => rfl
    | ok b =>
      change Traced.value <$> (env.meetTraced s b.passed >>= _) = env.meet s b.passed >>= _
      rw [← env.map_value_meetTraced s b.passed]
      cases env.meetTraced s b.passed with
      | error e => rfl
      | ok passed =>
        change Traced.value <$> (env.meetTraced s b.taken >>= _) = env.meet s b.taken >>= _
        rw [← env.map_value_meetTraced s b.taken]
        cases env.meetTraced s b.taken with
        | error e => rfl
        | ok taken =>
          refine congrArg Except.ok ((Traced.value_bind passed _).trans ?_)
          exact Traced.value_map _ taken
  | call c =>
    unfold transferTraced transfer
    dsimp only
    rw [Traced.map_value_bind, map_value_callTraced]
  | goto target => rfl
  | returnVoid => rfl
  | returnValue value => rfl
  | throwValue value => rfl

end Numeric

end Lifespan
