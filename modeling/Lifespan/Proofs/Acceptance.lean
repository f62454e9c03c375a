import Lifespan.Proofs.Erasure
import Lifespan.Proofs.Numeric.Soundness
import Lifespan.Proofs.PointsTo

namespace Lifespan

/-- Instructions after which control does not go on to the next one. -/
inductive Code.Instr.Leaves {V P T : Type} : Code.Instr V P T → Prop
  | goto (target : T) : Leaves (.goto target)
  | returnVoid : Leaves .returnVoid
  | returnValue (value : Code.Expr V P) : Leaves (.returnValue value)
  | throwValue (value : Code.Expr V P) : Leaves (.throwValue value)

theorem Code.Instr.leaves_iff {V P T : Type} {i : Code.Instr V P T} : i.Leaves ↔
    i.fallsThrough = false := by
  constructor
  · intro h
    cases h <;> rfl
  · intro h
    cases i with
    | assign | branch | call => cases h
    | goto t => exact .goto t
    | returnVoid => exact .returnVoid
    | returnValue v => exact .returnValue v
    | throwValue v => exact .throwValue v

/-- The source of a resolved instruction. -/
def Code.Instr.erase {n : Nat} (i : Lifespan.Instr n) : SourceInstr :=
  i.map Local.name Param.index Fin.val

namespace Scope

/-- The locals are declared and the parameters exist. -/
def Declares (s : Scope) (xs : List String) (ps : List Nat) : Prop :=
  (∀ x ∈ xs, x ∈ s.locals.keys) ∧ ∀ p ∈ ps, p < s.params.length

/-- The locals and parameters carry the types that they are declared with. -/
def Types (s : Scope) (xs : List Local) (ps : List Param) : Prop :=
  (∀ x ∈ xs, s.locals.get? x.name = some x.ty) ∧ ∀ p ∈ ps, s.params[p.index]? = some p.ty

/-- What makes an instruction of a source body acceptable. -/
structure Admits (s : Scope) (i : SourceInstr) : Prop where
  declared : s.Declares i.locals i.params
  /-- A parameter is copied into a local of its own type. -/
  copy : ∀ x p, i = .assign (.var x) (.param p) → s.locals.get? x = s.params[p]?
  target : ∀ t, i.target? = some t → t < s.length
  /-- Static calls have no receiver, all others have one. -/
  receiver : ∀ c, i = .call c → (c.receiver = none ↔ c.kind = .static)

variable {s : Scope}

theorem declares_append {xs ys : List String} {ps qs : List Nat} :
    s.Declares (xs ++ ys) (ps ++ qs) ↔ s.Declares xs ps ∧ s.Declares ys qs := by
  unfold Declares
  rw [List.forall_mem_append, List.forall_mem_append]
  tauto

theorem types_nil : s.Types [] [] := ⟨List.forall_mem_nil _, List.forall_mem_nil _⟩

theorem types_append {xs ys : List Local} {ps qs : List Param} :
    s.Types (xs ++ ys) (ps ++ qs) ↔ s.Types xs ps ∧ s.Types ys qs := by
  unfold Types
  rw [List.forall_mem_append, List.forall_mem_append]
  tauto

theorem Types.declares {xs : List Local} {ps : List Param} (h : s.Types xs ps) :
    s.Declares (xs.map Local.name) (ps.map Param.index) := by
  refine ⟨List.forall_mem_map.mpr fun x hx => ?_, List.forall_mem_map.mpr fun p hp => ?_⟩
  · rw [FinMap.mem_keys, h.1 x hx]
    rfl
  · exact (List.getElem?_eq_some_iff.mp (h.2 p hp)).1

theorem var_eq_ok {x : String} {y : Local} :
    s.var x = .ok y ↔ y.name = x ∧ s.locals.get? y.name = some y.ty := by
  refine ⟨fun h => ⟨?_, get?_of_var h⟩, ?_⟩
  · unfold var at h
    split at h
    · cases h
    · obtain rfl := Except.ok.inj h
      rfl
  · rintro ⟨rfl, h⟩
    unfold var
    rw [h]

theorem param_eq_ok {p : Nat} {q : Param} :
    s.param p = .ok q ↔ q.index = p ∧ s.params[q.index]? = some q.ty := by
  unfold param
  constructor
  · intro h
    cases hty : s.params[p]? with
    | none =>
      rw [hty] at h
      cases h
    | some ty =>
      rw [hty] at h
      obtain rfl := Except.ok.inj h
      exact ⟨rfl, hty⟩
  · rintro ⟨rfl, h⟩
    rw [h]

theorem exists_var {x : String} (h : x ∈ s.locals.keys) : ∃ y, s.var x = .ok y := by
  obtain ⟨ty, hty⟩ := Option.isSome_iff_exists.mp ((FinMap.mem_keys s.locals x).mp h)
  exact ⟨⟨x, ty⟩, var_eq_ok.mpr ⟨rfl, hty⟩⟩

theorem exists_param {p : Nat} (h : p < s.params.length) : ∃ q, s.param p = .ok q :=
  ⟨⟨p, s.params[p]⟩, param_eq_ok.mpr ⟨rfl, List.getElem?_eq_getElem h⟩⟩

theorem target_eq_ok {t : Nat} {j : Fin s.length} : s.target t = .ok j ↔ j.val = t := by
  unfold target
  split
  case isTrue => rw [Except.ok.injEq, Fin.ext_iff, eq_comm]
  case isFalse h =>
    constructor
    · intro hj
      cases hj
    · rintro rfl
      exact absurd j.isLt h

section Operands

variable {e : SourceExpr} {e' : Expr} {p : SourcePlace} {p' : Place}

theorem erase_expr (h : s.expr e = .ok e') : e'.map Local.name Param.index = e :=
  Code.Expr.map_of_resolve (fun _ _ h => (var_eq_ok.mp h).1) (fun _ _ h => (param_eq_ok.mp h).1) h

theorem erase_place (h : s.place p = .ok p') : p'.map Local.name Param.index = p :=
  Code.Place.map_of_resolve (fun _ _ h => (var_eq_ok.mp h).1) (fun _ _ h => (param_eq_ok.mp h).1) h

theorem types_expr (h : s.expr e = .ok e') : s.Types e'.locals e'.params := by
  refine ⟨fun x hx => ?_, fun q hq => ?_⟩
  · obtain ⟨name, hvar⟩ := Code.Expr.mem_locals_resolve h hx
    exact get?_of_var hvar
  · obtain ⟨index, hparam⟩ := Code.Expr.mem_params_resolve h hq
    exact (param_eq_ok.mp hparam).2

theorem types_place (h : s.place p = .ok p') : s.Types p'.locals p'.params := by
  refine ⟨fun x hx => ?_, fun q hq => ?_⟩
  · obtain ⟨name, hvar⟩ := Code.Place.mem_locals_resolve h hx
    exact get?_of_var hvar
  · obtain ⟨index, hparam⟩ := Code.Place.mem_params_resolve h hq
    exact (param_eq_ok.mp hparam).2

theorem exists_expr (h : s.Declares e.locals e.params) : ∃ e', s.expr e = .ok e' :=
  Code.Expr.exists_resolve (fun x hx => exists_var (h.1 x hx)) fun q hq => exists_param (h.2 q hq)

theorem exists_place (h : s.Declares p.locals p.params) : ∃ p', s.place p = .ok p' :=
  Code.Place.exists_resolve (fun x hx => exists_var (h.1 x hx)) fun q hq => exists_param (h.2 q hq)

end Operands

theorem checkAssign_eq_ok {target : Place} {value : Expr} :
    checkAssign target value = .ok () ↔ ∀ x p, target = .var x → value = .param p →
    x.ty = p.ty := by
  unfold checkAssign
  split
  case h_1 x p =>
    constructor
    · intro h x' p' hx hp
      obtain rfl := Code.Place.var.inj hx
      obtain rfl := Code.Expr.param.inj hp
      by_contra hne
      rw [if_neg hne] at h
      cases h
    · intro h
      rw [if_pos (h x p rfl rfl)]
  case h_2 hother =>
    exact ⟨fun _ x p hx hp => (hother x p hx hp).elim, fun _ => rfl⟩

/-- A receiver resolves exactly if it is there when it has to be, to the local that it names. -/
theorem receiver_eq_ok {c : SourceCall} {r : Option Local} :
    s.receiver c = .ok r ↔ (c.receiver = none ↔ c.kind = .static) ∧ r.map Local.name = c.receiver ∧
      ∀ y ∈ r.toList, s.locals.get? y.name = some y.ty := by
  have hvar (x : String) : (s.var x).map some = .ok r ↔
      r.map Local.name = some x ∧ ∀ y ∈ r.toList, s.locals.get? y.name = some y.ty := by
    refine Except.map_eq_ok.trans ?_
    cases r <;> simp [var_eq_ok]
  obtain ⟨kind, cls, method, receiver, args⟩ := c
  unfold Scope.receiver
  cases receiver with
  | none => cases kind <;> cases r <;> simp
  | some x => cases kind <;> simp [hvar]

section Calls

variable {c : SourceCall} {c' : Call}

theorem erase_call (h : s.call c = .ok c') : c'.map Local.name Param.index = c := by
  obtain ⟨receiver, hr, h⟩ := Except.bind_eq_ok.mp h
  obtain ⟨args, ha, h⟩ := Except.bind_eq_ok.mp h
  obtain rfl := Except.pure_eq_ok.mp h
  have hargs : args.map (Code.Expr.map Local.name Param.index) = c.args :=
    Except.map_of_mapM (fun _ _ => erase_expr) ha
  rw [Code.Call.map, (receiver_eq_ok.mp hr).2.1, hargs]

theorem types_call (h : s.call c = .ok c') :
    s.Types (c'.receiver.toList ++ c'.args.flatMap Code.Expr.locals)
      (c'.args.flatMap Code.Expr.params) := by
  refine ⟨fun x hx => ?_, fun q hq => ?_⟩
  · obtain ⟨name, hvar⟩ := mem_locals_call h hx
    exact get?_of_var hvar
  · obtain ⟨receiver, -, h⟩ := Except.bind_eq_ok.mp h
    obtain ⟨args, ha, h⟩ := Except.bind_eq_ok.mp h
    obtain rfl := Except.pure_eq_ok.mp h
    obtain ⟨e', he', hq⟩ := List.mem_flatMap.mp hq
    obtain ⟨e, -, he⟩ := Except.mem_of_mapM ha he'
    exact (types_expr he).2 q hq

theorem receiver_of_call (h : s.call c = .ok c') : c.receiver = none ↔ c.kind = .static := by
  obtain ⟨receiver, hr, -⟩ := Except.bind_eq_ok.mp h
  exact (receiver_eq_ok.mp hr).1

theorem exists_call (hreceiver : c.receiver = none ↔ c.kind = .static)
    (h : s.Declares (c.receiver.toList ++ c.args.flatMap Code.Expr.locals)
      (c.args.flatMap Code.Expr.params)) : ∃ c', s.call c = .ok c' := by
  have hr : ∃ r, s.receiver c = .ok r := by
    cases hx : c.receiver with
    | none => exact ⟨none, receiver_eq_ok.mpr ⟨hreceiver, hx.symm, List.forall_mem_nil _⟩⟩
    | some x =>
      obtain ⟨y, hy⟩ := exists_var (h.1 x (by simp [hx]))
      refine ⟨some y, receiver_eq_ok.mpr ⟨hreceiver, ?_, ?_⟩⟩
      · rw [hx, Option.map_some, (var_eq_ok.mp hy).1]
      · simpa using get?_of_var hy
  have ha : ∀ e ∈ c.args, ∃ e', s.expr e = .ok e' := fun e he =>
    exists_expr ⟨fun x hx => h.1 x (List.mem_append_right _ (List.mem_flatMap_of_mem he hx)),
      fun q hq => h.2 q (List.mem_flatMap_of_mem he hq)⟩
  obtain ⟨r, hr⟩ := hr
  obtain ⟨args, ha⟩ := Except.exists_mapM_iff.mpr ha
  exact ⟨_, Except.bind_eq_ok.mpr ⟨r, hr, Except.bind_eq_ok.mpr ⟨args, ha, rfl⟩⟩⟩

end Calls

/-- What an instruction resolves to. -/
inductive Resolves (s : Scope) : SourceInstr → Instr s.length → Prop
  | assign {target : SourcePlace} {value : SourceExpr} {t : Place} {v : Expr}
    (ht : s.place target = .ok t)
      (hv : s.expr value = .ok v) (check : checkAssign t v = .ok ()) :
      Resolves s (.assign target value) (.assign t v)
  | branch {cond : SourceExpr} {c : Expr} (hc : s.expr cond = .ok c) (j : Fin s.length) :
      Resolves s (.branch cond j.val) (.branch c j)
  | goto (j : Fin s.length) : Resolves s (.goto j.val) (.goto j)
  | call {c : SourceCall} {c' : Call} (hc : s.call c = .ok c') : Resolves s (.call c) (.call c')
  | returnVoid : Resolves s .returnVoid .returnVoid
  | returnValue {value : SourceExpr} {v : Expr} (hv : s.expr value = .ok v) :
      Resolves s (.returnValue value) (.returnValue v)
  | throwValue {value : SourceExpr} {v : Expr} (hv : s.expr value = .ok v) :
      Resolves s (.throwValue value) (.throwValue v)

section Instructions

variable {i : SourceInstr} {i' : Instr s.length}

theorem resolves_of_instr (h : s.instr i = .ok i') : s.Resolves i i' := by
  cases i with
  | assign target value =>
    obtain ⟨t, ht, h⟩ := Except.bind_eq_ok.mp h
    obtain ⟨v, hv, h⟩ := Except.bind_eq_ok.mp h
    obtain ⟨_, hcheck, h⟩ := Except.bind_eq_ok.mp h
    obtain rfl := Except.pure_eq_ok.mp h
    exact .assign ht hv hcheck
  | branch cond target =>
    obtain ⟨c, hc, h⟩ := Except.bind_eq_ok.mp h
    obtain ⟨j, hj, h⟩ := Except.bind_eq_ok.mp h
    obtain rfl := Except.pure_eq_ok.mp h
    obtain rfl := target_eq_ok.mp hj
    exact .branch hc j
  | goto target =>
    obtain ⟨j, hj, h⟩ := Except.bind_eq_ok.mp h
    obtain rfl := Except.pure_eq_ok.mp h
    obtain rfl := target_eq_ok.mp hj
    exact .goto j
  | call c =>
    obtain ⟨c', hc, h⟩ := Except.bind_eq_ok.mp h
    obtain rfl := Except.pure_eq_ok.mp h
    exact .call hc
  | returnVoid =>
    obtain rfl := Except.pure_eq_ok.mp h
    exact .returnVoid
  | returnValue value =>
    obtain ⟨v, hv, h⟩ := Except.bind_eq_ok.mp h
    obtain rfl := Except.pure_eq_ok.mp h
    exact .returnValue hv
  | throwValue value =>
    obtain ⟨v, hv, h⟩ := Except.bind_eq_ok.mp h
    obtain rfl := Except.pure_eq_ok.mp h
    exact .throwValue hv

theorem Resolves.instr_eq (h : s.Resolves i i') : s.instr i = .ok i' := by
  cases h with
  | assign ht hv check =>
    exact Except.bind_eq_ok.mpr
      ⟨_, ht, Except.bind_eq_ok.mpr ⟨_, hv, Except.bind_eq_ok.mpr ⟨(), check, rfl⟩⟩⟩
  | branch hc j =>
    exact Except.bind_eq_ok.mpr ⟨_, hc, Except.bind_eq_ok.mpr ⟨j, target_eq_ok.mpr rfl, rfl⟩⟩
  | goto j => exact Except.bind_eq_ok.mpr ⟨j, target_eq_ok.mpr rfl, rfl⟩
  | call hc => exact Except.bind_eq_ok.mpr ⟨_, hc, rfl⟩
  | returnVoid => rfl
  | returnValue hv => exact Except.bind_eq_ok.mpr ⟨_, hv, rfl⟩
  | throwValue hv => exact Except.bind_eq_ok.mpr ⟨_, hv, rfl⟩

theorem Resolves.erase_eq (h : s.Resolves i i') : i'.erase = i := by
  unfold Code.Instr.erase
  cases h with
  | assign ht hv _ => rw [Code.Instr.map, erase_place ht, erase_expr hv]
  | branch hc j => rw [Code.Instr.map, erase_expr hc]
  | goto j => rfl
  | call hc => rw [Code.Instr.map, erase_call hc]
  | returnVoid => rfl
  | returnValue hv => rw [Code.Instr.map, erase_expr hv]
  | throwValue hv => rw [Code.Instr.map, erase_expr hv]

theorem Resolves.types (h : s.Resolves i i') : s.Types i'.locals i'.params := by
  cases h with
  | assign ht hv _ => exact types_append.mpr ⟨types_place ht, types_expr hv⟩
  | branch hc j => exact types_expr hc
  | goto j => exact types_nil
  | call hc => exact types_call hc
  | returnVoid => exact types_nil
  | returnValue hv => exact types_expr hv
  | throwValue hv => exact types_expr hv

/-- The condition under which a resolved assignment passes its check, on its source. -/
theorem checkAssign_iff {target : SourcePlace} {value : SourceExpr} {t : Place} {v : Expr}
    (ht : s.place target = .ok t) (hv : s.expr value = .ok v) :
    checkAssign t v = .ok () ↔
      ∀ x p, target = .var x → value = .param p → s.locals.get? x = s.params[p]? := by
  rw [checkAssign_eq_ok]
  constructor
  · rintro h x p rfl rfl
    obtain ⟨y, hy, hty⟩ := Except.bind_eq_ok.mp ht
    obtain ⟨q, hq, hvq⟩ := Except.bind_eq_ok.mp hv
    obtain ⟨rfl, hxty⟩ := var_eq_ok.mp hy
    obtain ⟨rfl, hpty⟩ := param_eq_ok.mp hq
    rw [hxty, hpty, h y q (Except.pure_eq_ok.mp hty).symm (Except.pure_eq_ok.mp hvq).symm]
  · rintro h y q rfl rfl
    have hy := (types_place ht).1 y (List.mem_singleton_self y)
    have hq := (types_expr hv).2 q (List.mem_singleton_self q)
    have heq := h y.name q.index (erase_place ht).symm (erase_expr hv).symm
    rw [hy, hq] at heq
    exact Option.some.inj heq

theorem Admits.exists_resolves (h : s.Admits i) : ∃ i', s.Resolves i i' := by
  cases i with
  | assign target value =>
    obtain ⟨htarget, hvalue⟩ := declares_append.mp h.declared
    obtain ⟨t, ht⟩ := exists_place htarget
    obtain ⟨v, hv⟩ := exists_expr hvalue
    have hcheck := (checkAssign_iff ht hv).mpr fun x p hx hp => h.copy x p (by rw [hx, hp])
    exact ⟨_, .assign ht hv hcheck⟩
  | branch cond target =>
    obtain ⟨c, hc⟩ := exists_expr h.declared
    exact ⟨_, .branch hc ⟨target, h.target target rfl⟩⟩
  | goto target => exact ⟨_, .goto ⟨target, h.target target rfl⟩⟩
  | call c =>
    obtain ⟨c', hc⟩ := exists_call (h.receiver c rfl) h.declared
    exact ⟨_, .call hc⟩
  | returnVoid => exact ⟨_, .returnVoid⟩
  | returnValue value =>
    obtain ⟨v, hv⟩ := exists_expr h.declared
    exact ⟨_, .returnValue hv⟩
  | throwValue value =>
    obtain ⟨v, hv⟩ := exists_expr h.declared
    exact ⟨_, .throwValue hv⟩

theorem Resolves.admits (h : s.Resolves i i') : s.Admits i where
  declared := by
    have htypes := h.types.declares
    rwa [← Code.Instr.locals_map, ← Code.Instr.params_map, ← Code.Instr.erase, h.erase_eq] at htypes
  copy := by
    rintro x p rfl
    cases h with
    | assign ht hv check => exact (checkAssign_iff ht hv).mp check x p rfl rfl
  target := by
    intro t ht
    rw [← h.erase_eq, Code.Instr.erase, Code.Instr.target?_map] at ht
    obtain ⟨j, -, rfl⟩ := Option.map_eq_some_iff.mp ht
    exact j.isLt
  receiver := by
    rintro c rfl
    cases h with
    | call hc => exact receiver_of_call hc

theorem exists_instr_iff : (∃ i', s.instr i = .ok i') ↔ s.Admits i := by
  constructor
  · rintro ⟨i', h⟩
    exact (resolves_of_instr h).admits
  · intro h
    obtain ⟨i', h⟩ := h.exists_resolves
    exact ⟨i', h.instr_eq⟩

end Instructions

end Scope

/-- The source of a resolved body. -/
def Body.erase (b : Body) : List SourceInstr := b.code.toList.map Code.Instr.erase

namespace SourceMethod

/-- A body that can be accepted in the method: control does not run off its end, and its
instructions make sense. -/
structure Accepts (m : SourceMethod) (code : List SourceInstr) : Prop where
  ends : ∃ last, code.getLast? = some last ∧ last.Leaves
  admits : ∀ i ∈ code, (m.scope code.length).Admits i

/-- What makes a source method acceptable. -/
structure WellFormed (m : SourceMethod) : Prop where
  plain : ∀ x ∈ m.locals.keys, '.' ∉ x.toList
  body : ∀ code, m.body = some code → m.Accepts code

variable {m : SourceMethod} {m' : Method} {code : List SourceInstr} {b : Body}

theorem resolveBody_eq_ok : m.resolveBody code = .ok b ↔
    ∃ (v : Vector (Instr code.length) code.length) (hn : _) (he : _),
      code.mapM (m.scope code.length).instr = .ok v.toList ∧ b = ⟨code.length, v, hn, he⟩ := by
  constructor
  · intro h
    obtain ⟨v, hv, h⟩ := Except.bind_eq_ok.mp h
    obtain ⟨hn, he, hb⟩ := Body.ofCode_eq_ok.mp h
    exact ⟨v, hn, he, Except.mapM_toList.mpr hv, hb⟩
  · rintro ⟨v, hn, he, hv, rfl⟩
    exact Except.bind_eq_ok.mpr ⟨v, Except.mapM_toList.mp hv, Body.ofCode_eq_ok.mpr ⟨hn, he, rfl⟩⟩

theorem erase_of_resolveBody (h : m.resolveBody code = .ok b) : b.erase = code := by
  obtain ⟨v, hn, he, hv, rfl⟩ := resolveBody_eq_ok.mp h
  exact Except.map_of_mapM (fun _ _ h => (Scope.resolves_of_instr h).erase_eq) hv

theorem types_of_resolveBody (h : m.resolveBody code = .ok b) (i : Fin b.size) :
    (m.scope b.size).Types (b.code.get i).locals (b.code.get i).params := by
  obtain ⟨v, hn, he, hv, rfl⟩ := resolveBody_eq_ok.mp h
  have hmem : v.get i ∈ v.toList := by simp [Vector.get]
  obtain ⟨source, -, hsource⟩ := Except.mem_of_mapM hv hmem
  exact (Scope.resolves_of_instr hsource).types

/-- The last instruction of code and that of its source both leave or both go on. -/
theorem leaves_last {n : Nat} {v : Vector (Instr n) n} (hn : n - 1 < n)
    (h : v.toList.map Code.Instr.erase = code) :
    (∃ last, code.getLast? = some last ∧ last.Leaves) ↔ v[n - 1].fallsThrough = false := by
  have hlast : code.getLast? = some v[n - 1].erase := by
    rw [← h, List.getLast?_eq_getElem?]
    simp [hn]
  rw [hlast]
  simp [Code.Instr.leaves_iff, Code.Instr.erase]

theorem exists_resolveBody_iff : (∃ b, m.resolveBody code = .ok b) ↔ m.Accepts code := by
  constructor
  · rintro ⟨b, h⟩
    have herase := erase_of_resolveBody h
    obtain ⟨v, hn, he, hv, rfl⟩ := resolveBody_eq_ok.mp h
    refine ⟨(leaves_last (Nat.sub_one_lt_of_lt hn) herase).mpr he, fun i hi => ?_⟩
    exact Scope.exists_instr_iff.mp (Except.exists_mapM_iff.mp ⟨_, hv⟩ i hi)
  · rintro ⟨hends, hadmits⟩
    obtain ⟨l, hl⟩ :=
      Except.exists_mapM_iff.mpr fun i hi => Scope.exists_instr_iff.mpr (hadmits i hi)
    let v : Vector (Instr code.length) code.length := ⟨l.toArray, Except.length_of_mapM hl⟩
    have hv : code.mapM (m.scope code.length).instr = .ok v.toList := hl
    have hn : 0 < code.length := by
      obtain ⟨last, hlast, -⟩ := hends
      exact List.length_pos_of_mem (List.mem_of_getLast? hlast)
    have herase := Except.map_of_mapM (fun _ _ h => (Scope.resolves_of_instr h).erase_eq) hv
    have he := (leaves_last (Nat.sub_one_lt_of_lt hn) herase).mp hends
    exact ⟨_, resolveBody_eq_ok.mpr ⟨v, hn, he, hv, rfl⟩⟩

theorem resolve_eq_ok : m.resolve = .ok m' ↔ (∀ x ∈ m.locals.keys, '.' ∉ x.toList) ∧
    m'.name = m.name ∧ m'.params = m.params ∧ m.body.mapM m.resolveBody = .ok m'.body := by
  have hplain : m.locals.keys.find? isQualified = none ↔ ∀ x ∈ m.locals.keys, '.' ∉ x.toList := by
    simp [List.find?_eq_none, isQualified]
  rw [← hplain]
  unfold resolve
  cases hx : m.locals.keys.find? isQualified with
  | some x => simp [throw, throwThe, MonadExceptOf.throw]
  | none =>
    constructor
    · intro h
      obtain ⟨body, hbody, h⟩ := Except.bind_eq_ok.mp h
      obtain rfl := Except.pure_eq_ok.mp h
      exact ⟨rfl, rfl, rfl, hbody⟩
    · rintro ⟨-, hname, hparams, hbody⟩
      obtain ⟨name, params, body⟩ := m'
      subst hname hparams
      exact Except.bind_eq_ok.mpr ⟨body, hbody, rfl⟩

theorem exists_body_iff : (∃ body, m.body.mapM m.resolveBody = .ok body) ↔
    ∀ code, m.body = some code → m.Accepts code := by
  cases m.body with
  | none =>
    constructor
    · intro _ code hcode
      cases hcode
    · intro _
      exact ⟨none, rfl⟩
  | some code =>
    constructor
    · rintro ⟨body, h⟩ code' hcode
      obtain rfl := Option.some.inj hcode
      obtain ⟨b, hb, -⟩ := Except.map_eq_ok.mp h
      exact exists_resolveBody_iff.mp ⟨b, hb⟩
    · intro h
      obtain ⟨b, hb⟩ := exists_resolveBody_iff.mpr (h code rfl)
      exact ⟨some b, Except.map_eq_ok.mpr ⟨b, hb, rfl⟩⟩

theorem exists_resolve_iff : (∃ m', m.resolve = .ok m') ↔ m.WellFormed := by
  constructor
  · rintro ⟨m', h⟩
    obtain ⟨hplain, -, -, h⟩ := resolve_eq_ok.mp h
    exact ⟨hplain, exists_body_iff.mp ⟨_, h⟩⟩
  · rintro ⟨hplain, h⟩
    obtain ⟨body, h⟩ := exists_body_iff.mpr h
    exact ⟨⟨m.name, m.params, body⟩, resolve_eq_ok.mpr ⟨hplain, rfl, rfl, h⟩⟩

end SourceMethod

/-- The method is `source` with declarations in place of names. -/
structure Method.Image (m : Method) (source : SourceMethod) : Prop where
  name : m.name = source.name
  params : m.params = source.params
  code : m.body.map Body.erase = source.body
  types : ∀ b, m.body = some b →
    ∀ i, (source.scope b.size).Types (b.code.get i).locals (b.code.get i).params

theorem SourceMethod.image_of_resolve {m : SourceMethod} {m' : Method} (h : m.resolve = .ok m') :
    m'.Image m := by
  obtain ⟨-, hname, hparams, hbody⟩ := resolve_eq_ok.mp h
  cases hm : m.body with
  | none =>
    rw [hm] at hbody
    have hnone : m'.body = none := (Except.ok.inj hbody).symm
    refine ⟨hname, hparams, ?_, ?_⟩
    · rw [hm, hnone]
      rfl
    · intro b hb
      rw [hnone] at hb
      cases hb
  | some code =>
    rw [hm] at hbody
    obtain ⟨b, hb, hsome⟩ := Except.map_eq_ok.mp hbody
    refine ⟨hname, hparams, ?_, ?_⟩
    · rw [hm, ← hsome, Option.map_some, erase_of_resolveBody hb]
    · intro b' hb'
      rw [← hsome] at hb'
      obtain rfl := Option.some.inj hb'
      exact types_of_resolveBody hb

/-- What makes a source class acceptable. -/
def SourceClass.WellFormed (c : SourceClass) : Prop := ∀ m ∈ c.methods, m.WellFormed

namespace Class

/-- The class is `source` with declarations in place of names. -/
structure Image (c : Class) (source : SourceClass) : Prop where
  name : c.name = source.name
  methods : List.Forall₂ Method.Image c.methods source.methods

/-- The site is that of an instruction of the class. -/
def HasSite (c : Class) (site : Site) : Prop :=
  ∃ m b, c.methods[site.method]? = some m ∧ m.body = some b ∧ site.index < b.size

/-- What is looked up by the position of an instruction is there: the instructions where control may
go, the facts and states at each instruction, and the instructions that initializers and queries
come from. -/
structure Indexed (c : Class) : Prop where
  branch : ∀ m ∈ c.methods, ∀ b, m.body = some b → ∀ i t, (b.code.get i).erase.target? = some t →
    ∃ j : Fin b.size, j.val = t ∧ (j, .branch) ∈ b.graph.successors i
  fall : ∀ m ∈ c.methods, ∀ b, m.body = some b → ∀ i, ¬ (b.code.get i).Leaves →
    ∃ j : Fin b.size, j.val = i.val + 1 ∧ (j, .fall) ∈ b.graph.successors i
  facts : ∀ p, (PointsTo.ofClass c).result = .ok p → ∀ site, c.HasSite site →
    ∃ states, p.methods[site.method]? = some states ∧ site.index < states.size
  states : ∀ r site m a, c.HasSite site → c.methods[site.method]? = some m →
    (Analysis.ofMethod r m site.method).result = .ok (some a) →
      ∃ node, a.node? site.index = some node
  calls : ∀ site call, (site, call) ∈ c.calls → c.HasSite site
  resolved : ∀ s oracle r, (Resolver.ofOracle c s oracle).result = .ok r →
    (∀ i ∈ r.initializers, c.HasSite i.site) ∧ ∀ q ∈ r.queries, c.HasSite q.site

theorem hasSite_of_mem_calls {c : Class} {site : Site} {call : Call} (h : (site, call) ∈ c.calls) :
    c.HasSite site := by
  obtain ⟨m, b, hm, hb, -, hcall⟩ := mem_calls.mp h
  refine ⟨m, b, hm, hb, ?_⟩
  have hlt := (List.getElem?_eq_some_iff.mp hcall).1
  rwa [Vector.length_toList] at hlt

/-- Nothing is looked up in vain in a resolved class, since the lengths are part of what a
body is. -/
theorem indexed (c : Class) : c.Indexed where
  branch := by
    intro m _ b _ i t ht
    rw [Code.Instr.erase, Code.Instr.target?_map] at ht
    obtain ⟨j, hj, rfl⟩ := Option.map_eq_some_iff.mp ht
    exact ⟨j, rfl, Body.mem_successors_of_leads (fun h => by cases h) hj⟩
  fall := by
    intro m _ b _ i hi
    rw [Code.Instr.leaves_iff, Bool.not_eq_false] at hi
    obtain ⟨j, hj⟩ := Body.exists_leads_fall hi
    exact ⟨j, hj, Body.mem_successors_of_leads (fun _ => hi) hj⟩
  facts := by
    rintro p hp site ⟨m, b, hm, hb, hlt⟩
    obtain ⟨states, hstates, hof⟩ := PointsTo.getElem?_methods hp hm
    rw [PointsTo.ofMethod, hb] at hof
    obtain ⟨sol, -, hof⟩ := Logged.result_bind_ok.mp hof
    obtain ⟨-, -, hof⟩ := Logged.result_bind_ok.mp hof
    obtain rfl := Except.ok.inj hof
    exact ⟨_, hstates, by simpa using hlt⟩
  states := by
    rintro r site m a ⟨m', b, hm', hb, hlt⟩ hm ha
    rw [hm] at hm'
    obtain rfl := Option.some.inj hm'
    obtain ⟨env, sol, -, -, rfl⟩ := (Analysis.ofMethod_eq_ok hb).mp ha
    exact ⟨sol.nodes[site.index], by simp [Analysis.node?, hlt]⟩
  calls := fun _ _ => hasSite_of_mem_calls
  resolved := by
    intro s oracle r hr
    refine ⟨fun i hi => ?_, fun q hq => ?_⟩
    · obtain ⟨call, hcall, -⟩ := (Resolver.registers_of_ofOracle hr).initializer i hi
      exact hasSite_of_mem_calls hcall
    · obtain ⟨call, hcall, -⟩ := Resolver.exists_call_of_query hr q hq
      exact hasSite_of_mem_calls hcall

end Class

namespace SourceClass

variable {src : SourceClass} {c : Class}

theorem exists_resolve_iff : (∃ c, src.resolve = .ok c) ↔ src.WellFormed := by
  have hmethods : (∃ l, src.methods.mapM SourceMethod.resolve = .ok l) ↔ src.WellFormed := by
    rw [Except.exists_mapM_iff]
    exact forall₂_congr fun m _ => SourceMethod.exists_resolve_iff
  rw [← hmethods]
  constructor
  · rintro ⟨c, h⟩
    obtain ⟨methods, h, -⟩ := Except.bind_eq_ok.mp h
    exact ⟨methods, h⟩
  · rintro ⟨methods, h⟩
    exact ⟨⟨src.name, methods⟩, Except.bind_eq_ok.mpr ⟨methods, h, rfl⟩⟩

theorem image_of_resolve (h : src.resolve = .ok c) : c.Image src := by
  obtain ⟨methods, hmethods, hc⟩ := Except.bind_eq_ok.mp h
  obtain rfl := Except.pure_eq_ok.mp hc
  refine ⟨rfl, List.forall₂_iff_get.mpr ⟨Except.length_of_mapM hmethods, fun i hi hi' => ?_⟩⟩
  obtain ⟨m, hm, hresolve⟩ := Except.getElem?_of_mapM hmethods (List.getElem?_eq_getElem hi)
  rw [List.getElem?_eq_getElem hi'] at hm
  obtain rfl := Option.some.inj hm
  exact SourceMethod.image_of_resolve hresolve

/-- Exactly the well-formed classes are accepted. An accepted class is the source, instruction for
instruction, with the declared types in it, and nothing that is later looked up in it or in the
results of its analyses by the position of an instruction is out of range. -/
theorem accepted_iff_wellFormed (src : SourceClass) :
    ((∃ c, src.resolve = .ok c) ↔ src.WellFormed) ∧
      ∀ c, src.resolve = .ok c → c.Image src ∧ c.Indexed :=
  ⟨exists_resolve_iff, fun c h => ⟨image_of_resolve h, c.indexed⟩⟩

/-- Abstract code beside code with jumps both ways, calls with and without a receiver, and `x` deep
inside the target of an assignment. -/
def depotSource (x : String) : SourceClass where
  name := "Depot"
  methods := [
    { name := "size", params := [.double], locals := FinMap.empty, body := none },
    { name := "fill"
      params := [.int, .array .int]
      locals := (FinMap.empty.insert "k" .int).insert "xs" (.array .int)
      body := some [
        .assign (.var "k") (.param 0),
        .assign (.element "xs" (.arith .add (.element "xs" (.neg (.var x))) (.param 0))) (.int 1),
        .call ⟨.static, "Depot", "log", none, [.param 1]⟩,
        .call ⟨.virtual, "Depot", "size", some "xs", []⟩,
        .branch (.compare .lt (.var "k") (.param 0)) 0,
        .goto 6,
        .throwValue (.var "k")] }]

theorem accepted_iff_wellFormed_depot :
    ((depotSource "k").WellFormed ∧
      ∃ c, (depotSource "k").resolve = .ok c ∧ c.Image (depotSource "k") ∧ c.Indexed) ∧
    ¬ (depotSource "j").WellFormed ∧ ¬ ∃ c, (depotSource "j").resolve = .ok c := by
  obtain ⟨c, hc⟩ : ∃ c, (depotSource "k").resolve = .ok c := by
    have hok : (depotSource "k").resolve.isOk = true := by cbv
    cases h : (depotSource "k").resolve with
    | error e =>
      rw [h] at hok
      cases hok
    | ok c => exact ⟨c, rfl⟩
  have hstray : ¬ (depotSource "j").WellFormed := by
    intro h
    have hbody := (h _ (List.mem_cons_of_mem _ (List.mem_singleton_self _))).body _ rfl
    have hassign := hbody.admits _ (List.mem_cons_of_mem _ List.mem_cons_self)
    have hkey : "j" ∈ ["k", "xs"] := hassign.declared.1 "j" (by decide)
    exact absurd hkey (by decide)
  have haccepted := accepted_iff_wellFormed (depotSource "k")
  exact ⟨⟨haccepted.1.mp ⟨c, hc⟩, c, hc, haccepted.2 c hc⟩, hstray,
    fun h => hstray ((accepted_iff_wellFormed (depotSource "j")).1.mp h)⟩

end SourceClass

end Lifespan
