import Lifespan.Proofs.Comparisons
import Lifespan.Proofs.Environments
import Lifespan.Proofs.Numeric.Soundness

namespace Lifespan

open Dataflow

namespace Code.Expr

variable {e : Expr Local Param} {t : Term String} {env : Environment}

/-- An arithmetic expression over the variables of the environment. -/
def Over (env : Environment) (e : Expr Local Param) : Prop :=
  e.Arithmetic ∧ ∀ x ∈ e.locals, x.name ∈ env.vars

theorem over_iff : e.Over env ↔ ∃ t, e.term = .ok t ∧ ∀ x ∈ t.vars, x ∈ env.vars := by
  constructor
  · rintro ⟨harith, hlocals⟩
    obtain ⟨t, ht⟩ := harith.exists_term
    exact ⟨t, ht, by rwa [(vars_of_term ht).1, List.forall_mem_map]⟩
  · rintro ⟨t, ht, hvars⟩
    rw [(vars_of_term ht).1, List.forall_mem_map] at hvars
    exact ⟨arithmetic_of_term ht, hvars⟩

end Code.Expr

open Except (FailsAlike failsAlike_ok)

namespace Environment

variable (env : Environment) (s s' : Octagon env.size)

/-- What is wrong with a constraint is wrong with it at every state. -/
theorem meet_failsAlike (c : Constraint String) : FailsAlike (env.meet s c) (env.meet s' c) :=
  .after _ fun _ => failsAlike_ok _ _

theorem assign_failsAlike (x : String) (t : Term String) :
    FailsAlike (env.assign s x t) (env.assign s' x t) :=
  .after _ fun _ => .after _ fun _ => failsAlike_ok _ _

end Environment

namespace Numeric

section Failures

variable (env : Environment) (init : Option Initializer) (onCycle : Bool) (d d' : Octagon env.size)

theorem assign_failsAlike (target : Place) (value : Expr) :
    FailsAlike (assign env target value d) (assign env target value d') := by
  unfold assign assignWith
  split
  · exact .refl _
  · exact .refl _
  · exact .refl _
  · split
    · exact .refl _
    · exact .refl _
    · exact failsAlike_ok _ _
    · exact failsAlike_ok _ _
    · exact .after _ fun t => env.assign_failsAlike d d' _ t

theorem construct_failsAlike (i : Initializer) :
    FailsAlike (construct env i onCycle d) (construct env i onCycle d') :=
  .after _ fun t => (env.assign_failsAlike d d' _ t).bind fun _ _ _ _ => failsAlike_ok _ _

theorem call_failsAlike (c : Call) :
    FailsAlike (call env init onCycle c d) (call env init onCycle c d') := by
  unfold call callWith
  split
  · exact failsAlike_ok _ _
  · split
    · split
      · exact failsAlike_ok _ _
      · exact construct_failsAlike env onCycle d d' _
    · exact .refl _

/-- The error of an instruction is the same at every state. -/
theorem transfer_failsAlike {n : Nat} (instr : Instr n) :
    FailsAlike (transfer env init onCycle instr d) (transfer env init onCycle instr d') := by
  cases instr with
  | assign target value =>
    exact (assign_failsAlike env d d' target value).bind fun _ _ _ _ => failsAlike_ok _ _
  | branch cond target =>
    refine .after _ fun br => (env.meet_failsAlike d d' br.passed).bind fun _ _ _ _ => ?_
    exact (env.meet_failsAlike d d' br.taken).bind fun _ _ _ _ => failsAlike_ok _ _
  | goto target => exact failsAlike_ok _ _
  | call c => exact (call_failsAlike env init onCycle d d' c).bind fun _ _ _ _ => failsAlike_ok _ _
  | returnVoid => exact failsAlike_ok _ _
  | returnValue value => exact .refl _
  | throwValue value => exact .refl _

end Failures

/-- Instructions that can be analyzed, where `init` is the initializer at the site. -/
inductive Supported (env : Environment) (init : Option Initializer) {n : Nat} : Instr n → Prop
  | object {x : Local} {cls : String} (value : Expr) (ty : x.ty = .object cls) :
      Supported env init (.assign (.var x) value)
  | param {x : Local} (p : Param) (ty : x.ty = .int) :
    Supported env init (.assign (.var x) (.param p))
  | int {x : Local} {value : Expr} (ty : x.ty = .int) (known : value.Over env) :
      Supported env init (.assign (.var x) value)
  | branch (op : CmpOp) {l r : Expr} (left : l.Over env) (right : r.Over env) (target : Fin n) :
      Supported env init (.branch (.compare op l r) target)
  | goto (target : Fin n) : Supported env init (.goto target)
  | returnVoid : Supported env init .returnVoid
  | virtual {c : Call} (kind : c.kind = .virtual) : Supported env init (.call c)
  | untracked {c : Call} (kind : c.kind = .special) (constructs : c.method = constructorName)
      (unregistered : init = none) : Supported env init (.call c)
  | construct {c : Call} {i : Initializer} (kind : c.kind = .special)
    (constructs : c.method = constructorName)
      (registered : init = some i) (known : i.finish.Over env) : Supported env init (.call c)

section Supported

variable {env : Environment} {init : Option Initializer} {onCycle : Bool} {n : Nat}
    {instr : Instr n}
  {d d' : Octagon env.size} {out : Outflow (Octagon env.size)}

theorem supported_of_assign {target : Place} {value : Expr}
    (h : assign env target value d = .ok d') :
    Supported env init (.assign target value : Instr n) := by
  cases target with
  | var x =>
    obtain ⟨name, ty⟩ := x
    cases ty with
    | object cls => exact .object value rfl
    | double | array => cases h
    | int =>
      obtain ⟨y, hy, ⟨href, -⟩ | ⟨-, ⟨p, rfl⟩, -⟩ | ⟨-, t, ht, h⟩⟩ := assign_cases h
      · obtain rfl := Code.Place.var.inj hy
        cases href
      · exact .param p rfl
      · exact .int rfl (Code.Expr.over_iff.mpr ⟨t, ht, (Environment.mem_of_assign h).2⟩)
  | _ => cases h

theorem supported_of_call {c : Call} (h : call env init onCycle c d = .ok d') :
    Supported env init (.call c : Instr n) := by
  unfold call callWith at h
  split at h
  · exact .virtual ‹_›
  · split at h
    case isTrue hspecial =>
      obtain ⟨hkind, hconstructs⟩ := hspecial
      split at h
      · exact .untracked hkind hconstructs rfl
      · obtain ⟨t, ht, h⟩ := Except.bind_eq_ok.mp h
        obtain ⟨assigned, h, -⟩ := Except.bind_eq_ok.mp h
        exact .construct hkind hconstructs rfl
          (Code.Expr.over_iff.mpr ⟨t, ht, (Environment.mem_of_assign h).2⟩)
    case isFalse => cases h

theorem supported_of_transfer (h : transfer env init onCycle instr d = .ok out) :
    Supported env init instr := by
  cases instr with
  | assign target value =>
    obtain ⟨d', hd', -⟩ := transfer_assign.mp h
    exact supported_of_assign hd'
  | branch cond target =>
    obtain ⟨br, passed, taken, hbr, hpassed, -⟩ := transfer_branch.mp h
    obtain ⟨op, l, r, lt, rt, rfl, hl, hr, rfl⟩ := Code.Expr.branching_eq_ok hbr
    -- the two constraints have the same variables
    have hvars : ∀ x, x ∈ lt.vars ∨ x ∈ rt.vars → x ∈ env.vars := fun x hx =>
      Environment.mem_of_meet hpassed x ((op.mem_vars_branching lt rt false).mpr hx)
    exact .branch op (Code.Expr.over_iff.mpr ⟨lt, hl, fun x hx => hvars x (.inl hx)⟩)
      (Code.Expr.over_iff.mpr ⟨rt, hr, fun x hx => hvars x (.inr hx)⟩) target
  | goto target => exact .goto target
  | call c =>
    obtain ⟨d', hd', -⟩ := transfer_call.mp h
    exact supported_of_call hd'
  | returnVoid => exact .returnVoid
  | returnValue value => cases h
  | throwValue value => cases h

theorem assign_int {x : Local} {value : Expr} {t : Term String} (ty : x.ty = .int)
    (ht : value.term = .ok t) :
    assign env (.var x) value d = env.assign d x.name t := by
  obtain ⟨name, _⟩ := x
  subst ty
  cases value with
  | param p => cases ht
  | _ => exact congrArg (· >>= fun t => env.assign d name t) ht

theorem call_constructor {c : Call} (kind : c.kind = .special)
    (constructs : c.method = constructorName) :
    call env init onCycle c d = init.elim (.ok d) fun i => construct env i onCycle d := by
  unfold call callWith
  rw [if_neg (by simp [kind]), if_pos ⟨kind, constructs⟩]
  cases init <;> rfl

theorem Supported.exists_transfer (h : Supported env init instr)
    (htarget : ∀ x, instr.AssignsInt x → x ∈ env.vars)
    (hghost : ∀ i, init = some i → i.ghost ∈ env.vars) (onCycle : Bool) (d : Octagon env.size) :
    ∃ out, transfer env init onCycle instr d = .ok out := by
  cases h with
  | @object x cls value ty =>
    obtain ⟨name, _⟩ := x
    subst ty
    exact ⟨_, rfl⟩
  | @param x p ty =>
    obtain ⟨name, _⟩ := x
    subst ty
    exact ⟨_, rfl⟩
  | @int x value ty known =>
    obtain ⟨t, ht, hvars⟩ := Code.Expr.over_iff.mp known
    obtain ⟨d', hd'⟩ := Environment.exists_assign d (htarget x.name (.mk value ty rfl)) hvars
    exact ⟨_, transfer_assign.mpr ⟨d', (assign_int ty ht).trans hd', rfl⟩⟩
  | @branch op l r left right target =>
    obtain ⟨lt, hl, hlvars⟩ := Code.Expr.over_iff.mp left
    obtain ⟨rt, hr, hrvars⟩ := Code.Expr.over_iff.mp right
    have hvars (outcome : Bool) : ∀ x ∈ ((op.branching lt rt).on outcome).term.vars, x ∈ env.vars :=
      fun x hx =>
      ((op.mem_vars_branching lt rt outcome).mp hx).elim (hlvars x) (hrvars x)
    have hbranching : (Code.Expr.compare op l r).branching = .ok (op.branching lt rt) :=
      Code.Expr.branching_compare.mpr ⟨lt, rt, hl, hr, rfl⟩
    obtain ⟨_, hpassed⟩ := Environment.exists_meet d (hvars false)
    obtain ⟨_, htaken⟩ := Environment.exists_meet d (hvars true)
    exact ⟨_, transfer_branch.mpr ⟨_, _, _, hbranching, hpassed, htaken, rfl⟩⟩
  | goto target => exact ⟨_, rfl⟩
  | returnVoid => exact ⟨_, rfl⟩
  | virtual kind => exact ⟨_, transfer_call.mpr ⟨d, if_pos kind, rfl⟩⟩
  | untracked kind constructs unregistered =>
    subst unregistered
    exact ⟨_, transfer_call.mpr ⟨d, call_constructor kind constructs, rfl⟩⟩
  | @construct c i kind constructs registered known =>
    subst registered
    obtain ⟨t, ht, hvars⟩ := Code.Expr.over_iff.mp known
    obtain ⟨assigned, hassigned⟩ := Environment.exists_assign d (hghost i rfl) hvars
    have hconstruct : Numeric.construct env i onCycle d =
        .ok (if onCycle then d.join assigned else assigned) :=
      Except.bind_eq_ok.mpr ⟨t, ht, Except.bind_eq_ok.mpr ⟨assigned, hassigned, rfl⟩⟩
    exact ⟨_, transfer_call.mpr ⟨_, (call_constructor kind constructs).trans hconstruct, rfl⟩⟩

/-- What is not supported fails with one error, whatever flows in. -/
theorem exists_error_of_not_supported (h : ¬ Supported env init instr) (onCycle : Bool) :
    ∃ e, ∀ d, transfer env init onCycle instr d = .error e := by
  cases hempty : transfer env init onCycle instr .empty with
  | ok out => exact absurd (supported_of_transfer hempty) h
  | error e => exact ⟨e, fun d => (transfer_failsAlike env init onCycle .empty d instr e).mp hempty⟩

end Supported

end Numeric

namespace Dataflow

/-- The outcome of an iteration that did not use up its steps. -/
def settled {α : Type} : Except Error α → Bool
  | .error (.invariant (.unsettled _)) => false
  | _ => true

theorem settled_map {α β : Type} (f : α → β) (x : Except Error α) :
    settled (x.map f) = settled x := by
  cases x with
  | ok a => rfl
  | error e =>
    cases e with
    | invariant v => cases v <;> rfl
    | _ => rfl

variable {D : Type} {n : Nat}

theorem Iteration.le_of_next? {s : Iteration D n} {i j : Fin n} (h : s.next? = some i)
    (hj : s.pending.get j = true) : i ≤ j := by
  obtain ⟨-, before, after, hsplit, hbefore⟩ := List.find?_eq_some_iff_append.mp h
  have hmem : j ∈ before ++ i :: after := hsplit ▸ List.mem_finRange j
  have hsorted : (before ++ i :: after).Pairwise (· < ·) := hsplit ▸ List.pairwise_lt_finRange n
  rcases List.mem_append.mp hmem with hin | hin
  · have hnot := hbefore j hin
    simp [hj] at hnot
  · rcases List.mem_cons.mp hin with rfl | hin
    · exact le_rfl
    · exact (List.rel_of_pairwise_cons (List.pairwise_append.mp hsorted).2.1 hin).le

theorem Iteration.exists_next? {s : Iteration D n} {k : Fin n} (hk : s.pending.get k = true) :
    ∃ i, s.next? = some i ∧ i ≤ k := by
  cases hnext : s.next? with
  | none =>
    rw [not_pending_of_next? hnext k] at hk
    cases hk
  | some i => exact ⟨i, rfl, le_of_next? hnext hk⟩

namespace Problem

variable [AbstractDomain D] {p : Problem D n}

theorem not_settled_of_exhausted {s : Iteration D n} {i : Fin n} (hnext : s.next? = some i) :
    settled (p.run 0 s).result = false := by
  rw [run_exhausted hnext]
  rfl

/-- An iteration whose transfers do not fail comes to states. -/
theorem run_of_accepts (haccepts : ∀ i d, ∃ out, p.transfer i d = .ok out) {fuel : Nat}
    {s : Iteration D n} (hends : settled (p.run fuel s).result = true) :
    ∃ sol, (p.run fuel s).result = .ok sol := by
  induction fuel generalizing s with
  | zero =>
    cases hnext : s.next? with
    | none => exact ⟨_, run_settled hnext 0⟩
    | some i =>
      rw [not_settled_of_exhausted hnext] at hends
      cases hends
  | succ fuel ih =>
    cases hnext : s.next? with
    | none => exact ⟨_, run_settled hnext _⟩
    | some i =>
      obtain ⟨out, hout⟩ := haccepts i (p.arriving s i)
      rw [run_step hnext, hout] at hends ⊢
      exact ih hends

/-- An instruction that is still pending keeps those behind it from being visited. If it always
fails and none before it does, the iteration fails there. -/
theorem run_of_rejects {k : Fin n} {e : Error}
    (haccepts : ∀ i < k, ∀ d, ∃ out, p.transfer i d = .ok out)
    (hrejects : ∀ d, p.transfer k d = .error e) {fuel : Nat} {s : Iteration D n}
    (hk : s.pending.get k = true) (hends : settled (p.run fuel s).result = true) :
    (p.run fuel s).result = .error e := by
  obtain ⟨i, hnext, hle⟩ := Iteration.exists_next? hk
  induction fuel generalizing s i with
  | zero =>
    rw [not_settled_of_exhausted hnext] at hends
    cases hends
  | succ fuel ih =>
    rw [run_step hnext] at hends ⊢
    rcases hle.lt_or_eq with hlt | rfl
    · obtain ⟨out, hout⟩ := haccepts i hlt (p.arriving s i)
      rw [hout] at hends ⊢
      have hk' : (p.update s i out).pending.get k = true := update_pending.mpr (.inr ⟨hlt.ne', hk⟩)
      obtain ⟨j, hj, hjk⟩ := Iteration.exists_next? hk'
      exact ih hk' hends j hj hjk
    · rw [hrejects]
      rfl

end Problem

end Dataflow

namespace Analysis

variable {r : Resolver} {m : Method} {id : Nat} {b : Body} {env : Environment}

theorem result_ofMethod (hb : m.body = some b)
    (henv : m.environment (r.initializersOf id) = .ok env) :
    (ofMethod r m id).result =
      ((Numeric.problem env r id b).solve Numeric.stepLimit).result.map fun sol =>
      some ⟨env, b.size, sol⟩ := by
  cases hsol : ((Numeric.problem env r id b).solve Numeric.stepLimit).result with
  | ok sol => exact (ofMethod_eq_ok hb).mpr ⟨env, sol, henv, hsol, rfl⟩
  | error e =>
    unfold ofMethod
    rw [hb]
    dsimp only
    rw [← bind_pure_comp]
    refine Logged.result_bind_error.mpr (.inl ?_)
    unfold ofBody
    rw [Logged.result_within]
    exact Logged.result_bind_error.mpr (.inr ⟨env, henv, Logged.result_bind_error.mpr
      (.inr ⟨(), rfl, Logged.result_bind_error.mpr (.inl hsol)⟩)⟩)

theorem exists_transfer_of_supported (hb : m.body = some b)
    (henv : m.environment (r.initializersOf id) = .ok env) {i : Fin b.size}
    (h : Numeric.Supported env (r.initializerAt ⟨id, i⟩) (b.code.get i)) (d : Octagon env.size) :
    ∃ out, (Numeric.problem env r id b).transfer i d = .ok out := by
  have hvars := Environment.vars_of_ofVars henv
  refine h.exists_transfer (fun x hx => ?_) (fun j hj => ?_) _ d
  · rw [hvars]
    exact List.mem_append_left _ (Method.mem_integerLocals_of_code hb hx)
  · rw [hvars]
    exact List.mem_append_right _ (List.mem_map_of_mem (Numeric.mem_of_initializerAt hj).1)

/-- The first unsupported instruction fails with one error at every state, and so does
the analysis. -/
theorem exists_error_of_first (hb : m.body = some b)
    (henv : m.environment (r.initializersOf id) = .ok env)
    (hends : settled (ofMethod r m id).result = true) {i : Fin b.size}
    (hi : ¬ Numeric.Supported env (r.initializerAt ⟨id, i⟩) (b.code.get i))
    (hbefore : ∀ j < i, Numeric.Supported env (r.initializerAt ⟨id, j⟩) (b.code.get j)) :
    ∃ e, (∀ d, (Numeric.problem env r id b).transfer i d = .error e) ∧
    (ofMethod r m id).result = .error e := by
  rw [result_ofMethod hb henv] at hends ⊢
  rw [settled_map] at hends
  obtain ⟨e, he⟩ := Numeric.exists_error_of_not_supported hi (b.graph.isOnCycle i)
  have hsolve : ((Numeric.problem env r id b).solve Numeric.stepLimit).result = .error e :=
    Problem.run_of_rejects (fun j hj => exists_transfer_of_supported hb henv (hbefore j hj)) he
      (by simp [Problem.start]) hends
  exact ⟨e, he, by rw [hsolve]; rfl⟩

/-- A method of an accepted class is analyzed exactly if each of its instructions is supported,
reached or not. If not, it is rejected with the error of the first one that is not, which is the
same whatever flows in there. The iteration only has to come to an end. -/
theorem ofMethod_ok_iff_supported (src : SourceClass) (c : Class) (s : Settings)
    (oracle : Oracle) (r : Resolver) (m : Method) (id : Nat) (b : Body) (hc : src.resolve = .ok c)
    (hr : (Resolver.ofOracle c s oracle).result = .ok r) (hm : c.methods[id]? = some m)
    (hb : m.body = some b) (hends : settled (ofMethod r m id).result = true) :
    ∃ env, m.environment (r.initializersOf id) = .ok env ∧
      ((∃ a, (ofMethod r m id).result = .ok (some a)) ↔
        ∀ i : Fin b.size, Numeric.Supported env (r.initializerAt ⟨id, i⟩) (b.code.get i)) ∧
      ∀ i : Fin b.size, ¬ Numeric.Supported env (r.initializerAt ⟨id, i⟩) (b.code.get i) →
        (∀ j < i, Numeric.Supported env (r.initializerAt ⟨id, j⟩) (b.code.get j)) →
        ∃ e, (∀ d, (Numeric.problem env r id b).transfer i d = .error e) ∧
        (ofMethod r m id).result = .error e := by
  obtain ⟨env, henv⟩ := Method.exists_environment hc hr (List.mem_of_getElem? hm) id
  refine ⟨env, henv, ⟨?_, ?_⟩, fun i => exists_error_of_first hb henv hends⟩
  · -- by induction on the index, since otherwise there is a first one that is not
    rintro ⟨a, ha⟩ i
    induction i using WellFoundedLT.induction with
    | ind i hbefore =>
      by_contra hi
      obtain ⟨e, -, he⟩ := exists_error_of_first hb henv hends hi hbefore
      rw [ha] at he
      cases he
  · intro hall
    rw [result_ofMethod hb henv, settled_map] at hends
    obtain ⟨sol, hsol⟩ :=
      Problem.run_of_accepts (fun j => exists_transfer_of_supported hb henv (hall j)) hends
    exact ⟨_, (ofMethod_eq_ok hb).mpr ⟨env, sol, henv, hsol, rfl⟩⟩

/-- A loop, then a throw that no path leads to and a quotient. -/
def strandedSource : SourceClass where
  name := "Stranded"
  methods := [{
    name := "run"
    params := []
    locals := FinMap.empty.insert "k" .int
    body := some [
      .assign (.var "k") (.int 0),
      .branch (.compare .lt (.var "k") (.int 3)) 0,
      .goto 4,
      .throwValue .null,
      .assign (.var "k") (.arith .div (.var "k") (.int 2)),
      .returnVoid] }]

def strandedBody : Body where
  size := 6
  code :=
    let k : Local := ⟨"k", .int⟩
    #v[.assign (.var k) (.int 0),
      .branch (.compare .lt (.var k) (.int 3)) 0,
      .goto 4,
      .throwValue .null,
      .assign (.var k) (.arith .div (.var k) (.int 2)),
      .returnVoid]
  pos := Nat.zero_lt_succ _
  ends := Eq.refl false

def strandedMethod : Method := ⟨"run", [], some strandedBody⟩

def strandedClass : Class := ⟨"Stranded", [strandedMethod]⟩

def strandedResolver : Resolver := .start fun _ _ => FinMap.empty

def strandedEnvironment : Environment := .ofNodup ["k"] (List.nodup_singleton _)

theorem stranded_settled : settled (ofMethod strandedResolver strandedMethod 0).result = true := by
  have henv : strandedMethod.environment (strandedResolver.initializersOf 0) =
      .ok strandedEnvironment := rfl
  rw [result_ofMethod rfl henv, settled_map]
  have hhead : ∀ i, strandedBody.graph.loopHeads.contains i = decide (i.val = 0) :=
    Graph.contains_loopHeads_of_all (by cbv)
  have hcycle : ∀ i, strandedBody.graph.onCycle.contains i = decide (i.val ≤ 1) :=
    Graph.contains_onCycle_of_all (by cbv)
  simp only [Problem.solve, Problem.start, Numeric.problem, hhead, hcycle]
  decide +kernel

/-- The throw is what is rejected, although control only comes to the quotient. -/
theorem ofMethod_ok_iff_supported_stranded :
    strandedSource.resolve = .ok strandedClass ∧
    (Resolver.ofOracle strandedClass {} strandedResolver.oracle).result = .ok strandedResolver ∧
    settled (ofMethod strandedResolver strandedMethod 0).result = true ∧
    (ofMethod strandedResolver strandedMethod 0).result =
    .error (.unsupported (.throwValue .null)) := by
  have hc : strandedSource.resolve = .ok strandedClass := by cbv
  have hr : (Resolver.ofOracle strandedClass {} strandedResolver.oracle).result =
      .ok strandedResolver := by cbv
  refine ⟨hc, hr, stranded_settled, ?_⟩
  obtain ⟨env, henv, -, hfirst⟩ := ofMethod_ok_iff_supported strandedSource strandedClass {}
    strandedResolver.oracle strandedResolver strandedMethod 0 strandedBody hc hr rfl
      rfl stranded_settled
  obtain rfl : env = strandedEnvironment := (Except.ok.inj henv).symm
  have hint (v : Int) : (Code.Expr.int v : Expr).Over strandedEnvironment :=
    ⟨.int v, by simp [Code.Expr.locals]⟩
  have hk : (Code.Expr.var ⟨"k", .int⟩ : Expr).Over strandedEnvironment :=
    ⟨.var rfl, by simp [Code.Expr.locals, strandedEnvironment]⟩
  have hbefore : ∀ j < (3 : Fin 6), Numeric.Supported strandedEnvironment
      (strandedResolver.initializerAt ⟨0, j⟩) (strandedBody.code.get j) := by
    intro j hj
    obtain ⟨_ | _ | _ | j, hlt⟩ := j
    · exact .int rfl (hint 0)
    · exact .branch .lt hk (hint 3) _
    · exact .goto _
    · have hlt : j + 3 < 3 := hj
      omega
  obtain ⟨e, he, hresult⟩ := hfirst (3 : Fin 6) (by rintro ⟨⟩) hbefore
  obtain rfl : .unsupported (.throwValue .null) = e := Except.error.inj (he .empty)
  exact hresult

end Analysis

end Lifespan
