import Lifespan.Proofs.Numeric.Coverage
import Mathlib

namespace Lifespan

open Dataflow

/-- Copies a parameter or `this` into a local. -/
def Code.Instr.isIdentity {V P T : Type} : Code.Instr V P T → Bool
  | .assign (.var _) (.param _) | .assign (.var _) .self => true
  | _ => false

theorem Code.Instr.fallsThrough_of_isIdentity {V P T : Type} {instr : Code.Instr V P T}
    (h : instr.isIdentity = true) : instr.fallsThrough = true := by
  cases instr with
  | assign target value => rfl
  | _ => cases h

/-- Copies a parameter into an int local. -/
def Code.Instr.takesInt {P T : Type} : Code.Instr Local P T → Bool
  | .assign (.var x) (.param _) => x.ty = .int
  | _ => false

theorem Code.Instr.takesInt_iff {P T : Type} {instr : Code.Instr Local P T} :
    instr.takesInt = true ↔ ∃ x p, instr = .assign (.var x) (.param p) ∧ x.ty = .int := by
  constructor
  · intro h
    unfold takesInt at h
    split at h
    · exact ⟨_, _, rfl, of_decide_eq_true h⟩
    · cases h
  · rintro ⟨x, p, rfl, hty⟩
    exact decide_eq_true hty

/-- Parameters are copied into int locals only in a leading block of such copies. -/
def Body.ParamsLead (b : Body) : Prop :=
  ∀ i, (b.code.get i).takesInt = true → ∀ j, j ≤ i → (b.code.get j).isIdentity = true

instance (b : Body) : Decidable b.ParamsLead :=
  inferInstanceAs (Decidable (∀ i, (b.code.get i).takesInt = true → ∀ j, j ≤ i → _))

namespace Numeric

variable {s : Settings} {env : Environment} {locals : List String} {r : Resolver}
    {id : Nat} {b : Body}
  {args : Nat → Int} {sol : Solution (Octagon env.size) b.size} {fuel : Nat}

theorem transfer_identity {n : Nat} {init : Option Initializer} {onCycle : Bool} {instr : Instr n}
    {d : Octagon env.size} {out : Outflow (Octagon env.size)} (hid : instr.isIdentity = true)
    (h : transfer env init onCycle instr d = .ok out) : out.fall = some d := by
  cases instr with
  | assign target value =>
    obtain ⟨d', hd', rfl⟩ := transfer_assign.mp h
    obtain ⟨x, rfl, ⟨-, rfl⟩ | ⟨-, -, rfl⟩ | ⟨-, t, ht, -⟩⟩ := assign_cases hd'
    · rfl
    · rfl
    · -- neither a parameter nor the receiver has a term
      cases value with
      | param p => cases ht
      | self => cases ht
      | _ => cases hid
  | _ => cases hid

/-- Nothing is known yet in the leading block. -/
theorem point_of_lead (hset : ∀ j, (problem env r id b).Settled sol.nodes j) {i : Fin b.size}
    (hlead : ∀ j ≤ i, (b.code.get j).isIdentity = true) (w : Fin env.size → Int) :
    (sol.nodes.get i).incoming.Point w := by
  obtain ⟨i, hi⟩ := i
  induction i with
  | zero =>
    exact (Octagon.upperBounds env.size).entry_le_incoming (hset ⟨0, hi⟩)
      rfl w (Octagon.point_top w)
  | succ i ih =>
    have hprev : i < b.size := Nat.lt_of_succ_lt hi
    have hle : (⟨i, hprev⟩ : Fin b.size) ≤ ⟨i + 1, hi⟩ := Nat.le_succ i
    have hpoint := ih hprev fun j hj => hlead j (le_trans hj hle)
    obtain ⟨out, hout, hsame⟩ := (hset ⟨i, hprev⟩).produced
    have hfall := transfer_identity (hlead _ hle) hout
    have hstored : ((sol.nodes.get ⟨i, hprev⟩).out .fall).Point w :=
      (Octagon.point_of_same (hsame .fall _ hfall)).mpr hpoint
    have hthrough : (b.code.get ⟨i, hprev⟩).fallsThrough = true :=
      Code.Instr.fallsThrough_of_isIdentity (hlead _ hle)
    exact (Octagon.upperBounds env.size).edge_le_incoming (hset ⟨i + 1, hi⟩)
      (Body.mem_successors_of_leads (e := .fall) (fun _ => hthrough) rfl) w hstored

theorem mem_of_initializerAt {site : Site} {i : Initializer} (h : r.initializerAt site = some i) :
    i ∈ r.initializersOf site.method ∧ i.site.index = site.index := by
  obtain ⟨hmem, hsite⟩ := r.sites.mem_of_find? h
  exact ⟨List.mem_filter.mpr ⟨hmem, by simp [hsite]⟩, by rw [hsite]⟩

theorem index_ne_of_initializerAt {site : Site} (h : r.initializerAt site = none) :
    ∀ i ∈ r.initializersOf site.method, i.site.index ≠ site.index := by
  intro i hi heq
  obtain ⟨hmem, hmethod⟩ := List.mem_filter.mp hi
  have hsite : i.site = site := by
    calc i.site = ⟨i.site.method, i.site.index⟩ := rfl
      _ = site := by rw [beq_iff_eq.mp hmethod, heq]
  exact r.sites.find?_eq_none.mp h i hmem hsite

variable (ctx : Context s env locals (r.initializersOf id) b)

include ctx

/-- A step leads from a covered machine into the state of its edge. -/
theorem covers_step (hset : ∀ j, (problem env r id b).Settled sol.nodes j) (hp : b.ParamsLead)
    {σ τ : Machine b.size} {e : Edge} (hσ : b.Reachable s args σ)
    (hd : Covers locals (r.initializersOf id) (sol.nodes.get σ.pc).incoming σ)
    (h : b.Step s args σ e τ) :
    Covers locals (r.initializersOf id) ((sol.nodes.get σ.pc).out e) τ := by
  obtain @⟨τ, j, effect, leads⟩ := h
  obtain ⟨out, hout, hsame⟩ := (hset σ.pc).produced
  obtain ⟨d, hd', hcov⟩ := hd.transfer ctx rfl (fun i hi => mem_of_initializerAt hi)
    index_ne_of_initializerAt hσ.index_ne_of_not_onCycle
    (fun x p hx hty => point_of_lead hset (hp σ.pc (by simp [hx, Code.Instr.takesInt, hty])))
      effect hout
  intro v hv
  rw [Octagon.point_of_same (hsame e d hd')]
  exact hcov.congr (τ := τ.goto j) rfl rfl v hv

theorem covers_of_reachable (hset : ∀ j, (problem env r id b).Settled sol.nodes j)
    (hp : b.ParamsLead) {σ : Machine b.size} (hσ : b.Reachable s args σ) :
    Covers locals (r.initializersOf id) (sol.nodes.get σ.pc).incoming σ := by
  induction hσ with
  | start h =>
    intro v _
    exact (Octagon.upperBounds env.size).entry_le_incoming (hset _) h.pc _ (Octagon.point_top _)
  | step hσ h ih =>
    intro v hv
    have hedge := covers_step ctx hset hp hσ ih h v hv
    exact (Octagon.upperBounds env.size).edge_le_incoming (hset _) h.adj _ hedge

end Numeric

namespace Analysis

variable {s : Settings} {r : Resolver} {m : Method} {id : Nat} {b : Body}

/-- The context of a method of an accepted class. -/
theorem context_of_resolve {src : SourceClass} {c : Class} {oracle : Oracle} {env : Environment}
    (hc : src.resolve = .ok c) (hr : r.Registers s oracle c.calls) (hm : c.methods[id]? = some m)
    (hb : m.body = some b) (henv : m.environment (r.initializersOf id) = .ok env) :
    Numeric.Context s env m.integerLocals (r.initializersOf id) b where
  vars := Environment.vars_of_ofVars henv
  plain := SourceClass.plain_of_resolve hc (List.mem_of_getElem? hm) hb
  index_inj := by
    intro i hi j hj hindex
    obtain ⟨hi, himethod⟩ := List.mem_filter.mp hi
    obtain ⟨hj, hjmethod⟩ := List.mem_filter.mp hj
    apply hr.eq_of_site hi hj
    calc i.site = ⟨i.site.method, i.site.index⟩ := rfl
      _ = j.site := by rw [beq_iff_eq.mp himethod, hindex, ← beq_iff_eq.mp hjmethod]
  call := by
    intro i hi
    obtain ⟨hi, hmethod⟩ := List.mem_filter.mp hi
    obtain ⟨call, hmem, start, -, hbounds, hstart, -⟩ := hr.initializer i hi
    obtain ⟨m', b', hm', hb', -, hcode⟩ := Class.mem_calls.mp hmem
    rw [beq_iff_eq.mp hmethod, hm] at hm'
    obtain rfl := Option.some.inj hm'
    rw [hb] at hb'
    obtain rfl := Option.some.inj hb'
    obtain ⟨hlt, hget⟩ := List.getElem?_eq_some_iff.mp hcode
    have hsize : i.site.index < b.size := by simpa using hlt
    exact ⟨hsize, call, start, by simpa [Vector.get_eq_getElem] using hget, hbounds, hstart⟩

theorem ofMethod_eq_ok {a : Analysis} (hb : m.body = some b) :
    (ofMethod r m id).result = .ok (some a) ↔
    ∃ env sol, m.environment (r.initializersOf id) = .ok env ∧
      ((Numeric.problem env r id b).solve Numeric.stepLimit).result = .ok sol ∧
      a = ⟨env, b.size, sol⟩ := by
  unfold ofMethod
  rw [hb]
  simp only [Logged.result_map_ok, Option.some.injEq, exists_eq_right]
  unfold ofBody
  rw [Logged.result_within, Logged.result_bind_ok]
  constructor
  · rintro ⟨env, henv, h⟩
    obtain ⟨-, -, h⟩ := Logged.result_bind_ok.mp h
    obtain ⟨sol, hsol, h⟩ := Logged.result_bind_ok.mp h
    obtain ⟨-, -, h⟩ := Logged.result_bind_ok.mp h
    exact ⟨env, sol, henv, hsol, (Except.ok.inj h).symm⟩
  · rintro ⟨env, sol, henv, hsol, rfl⟩
    refine ⟨env, henv, Logged.result_bind_ok.mpr ⟨(), rfl, ?_⟩⟩
    refine Logged.result_bind_ok.mpr ⟨sol, hsol, Logged.result_bind_ok.mpr ⟨(), rfl, rfl⟩⟩

/-- At every machine that a run comes to, what the state before its instruction and the states on
the edges that the run may take from there hold. -/
theorem covers_run {src : SourceClass} {c : Class} {oracle : Oracle} {a : Analysis}
    (hc : src.resolve = .ok c) (hr : r.Registers s oracle c.calls) (hm : c.methods[id]? = some m)
    (hb : m.body = some b) (ha : (ofMethod r m id).result = .ok (some a)) (hp : b.ParamsLead)
    {args : Nat → Int} {σ : Machine b.size} (hσ : b.Reachable s args σ) :
    ∃ node, a.node? σ.pc = some node ∧
      Numeric.Covers m.integerLocals (r.initializersOf id) node.incoming σ ∧
      ∀ e τ, b.Step s args σ e τ →
        Numeric.Covers m.integerLocals (r.initializersOf id) (node.out e) τ := by
  obtain ⟨env, sol, henv, hsol, rfl⟩ := (ofMethod_eq_ok hb).mp ha
  have ctx := context_of_resolve hc hr hm hb henv
  have hset := Problem.settled_of_solve Octagon.same_refl hsol
  have hcov := Numeric.covers_of_reachable ctx hset hp hσ
  refine ⟨sol.nodes.get σ.pc, by simp [node?, Vector.get_eq_getElem], hcov, ?_⟩
  intro e τ h
  exact Numeric.covers_step ctx hset hp hσ hcov h

/-- The numeric analysis is sound. Take any accepted class, a resolver built on it with any oracle,
and a method whose analysis gives states. In every run, with any arguments, the int locals and one
end for each ghost variable, of any interval constructed so far by its call or just any integer if
there is none, make up a point of the state before the instruction where control is, and of the
state of the edge on which control leaves it. -/
theorem ofMethod_sound (src : SourceClass) (c : Class) (s : Settings)
    (oracle : Oracle) (r : Resolver) (m : Method) (id : Nat) (b : Body) (a : Analysis)
    (hc : src.resolve = .ok c) (hr : (Resolver.ofOracle c s oracle).result = .ok r)
    (hm : c.methods[id]? = some m) (hb : m.body = some b)
    (ha : (ofMethod r m id).result = .ok (some a)) (hp : b.ParamsLead) (args : Nat → Int)
    (σ : Machine b.size) (hσ : b.Reachable s args σ) :
    ∃ node, a.node? σ.pc = some node ∧
      (∀ v, σ.Extended m.integerLocals (r.initializersOf id) v →
        node.incoming.Point (a.env.point v)) ∧
      ∀ e τ, b.Step s args σ e τ → ∀ v, τ.Extended m.integerLocals (r.initializersOf id) v →
        (node.out e).Point (a.env.point v) :=
  covers_run hc (Resolver.registers_of_ofOracle hr) hm hb ha hp hσ

/-- An interval up to the argument in each round of a loop. -/
def roundsSource : SourceClass where
  name := "Rounds"
  methods := [{
    name := "run"
    params := [.int]
    locals := (FinMap.empty.insert "n" .int).insert "o" (.object "Interval")
    body := some [
      .assign (.var "n") (.param 0),
      .assign (.var "o") (.new "Interval"),
      .call ⟨.special, "Interval", "<init>", some "o", [.int 0, .var "n"]⟩,
      .branch (.compare .lt (.var "n") (.int 5)) 1,
      .returnVoid] }]

def roundsBody : Body where
  size := 5
  code :=
    let n : Local := ⟨"n", .int⟩
    let o : Local := ⟨"o", .object "Interval"⟩
    #v[.assign (.var n) (.param ⟨0, .int⟩),
      .assign (.var o) (.new "Interval"),
      .call ⟨.special, "Interval", "<init>", some o, [.int 0, .var n]⟩,
      .branch (.compare .lt (.var n) (.int 5)) 1,
      .returnVoid]
  pos := by decide
  ends := rfl

def roundsMethod : Method := ⟨"run", [.int], some roundsBody⟩

def roundsClass : Class := ⟨"Rounds", [roundsMethod]⟩

def roundsOracle : Oracle := fun _ _ => FinSet.single ⟨0, 1⟩

def roundsResolver : Resolver :=
  (Resolver.start roundsOracle).push ⟨0, 2⟩ ⟨0, 1⟩ 0 (.var ⟨"n", .int⟩)

def roundsEnvironment : Environment := .ofNodup ["n", "AbstractObject0.end"] (by decide)

theorem rounds_analysis : ∃ a, (ofMethod roundsResolver roundsMethod 0).result = .ok (some a) := by
  have hsolve : ∃ sol, ((Numeric.problem roundsEnvironment roundsResolver 0 roundsBody).solve
      Numeric.stepLimit).result = .ok sol := by
    apply Logged.exists_of_isOk
    have hhead : ∀ i, roundsBody.graph.loopHeads.contains i = decide (i.val = 1) :=
      Graph.contains_loopHeads_of_all (by cbv)
    have hcycle : ∀ i, roundsBody.graph.onCycle.contains i = decide (1 ≤ i.val ∧ i.val ≤ 3) :=
      Graph.contains_onCycle_of_all (by cbv)
    -- with loop heads and cycles known, the kernel runs the iteration
    simp only [Problem.solve, Problem.start, Numeric.problem, hhead, hcycle]
    decide +kernel
  obtain ⟨sol, hsol⟩ := hsolve
  exact ⟨_, (ofMethod_eq_ok rfl).mpr ⟨roundsEnvironment, sol, rfl, hsol, rfl⟩⟩

/-- The second round, with the interval of the first. -/
def secondRound : Machine 5 where
  pc := 1
  ints := Function.update (fun _ => 0) "n" 3
  refs := Function.update (fun _ => none) "o" (some 0)
  allocations := [1]
  constructions := [⟨2, some 0, 0, 3⟩]

theorem secondRound_reachable : roundsBody.Reachable {} (fun _ => 3) secondRound := by
  have h0 : roundsBody.Reachable {} (fun _ => 3) ⟨(0 : Fin 5), fun _ => 0, fun _ => none, [], []⟩ :=
    .start ⟨rfl, fun _ => rfl, rfl, rfl⟩
  have l0 : roundsBody.Leads (0 : Fin 5) .fall (1 : Fin 5) := rfl
  have l1 : roundsBody.Leads (1 : Fin 5) .fall (2 : Fin 5) := rfl
  have l2 : roundsBody.Leads (2 : Fin 5) .fall (3 : Fin 5) := rfl
  have l3 : roundsBody.Leads (3 : Fin 5) .branch (1 : Fin 5) := rfl
  have h1 := h0.step (.mk (.assignInt rfl (.param rfl)) l0)
  have h2 := h1.step (.mk (.assignRef (.new "Interval") rfl) l1)
  have h3 := h2.step (.mk (.construct rfl (.int 0) (.var rfl)) l2)
  have h4 := h3.step (.mk (.take (.compare .lt (.var rfl) (.int 5))) l3)
  exact h4

theorem secondRound_extended {v : String → Int} (hn : v "n" = 3)
    (hend : v "AbstractObject0.end" = 3) :
    secondRound.Extended roundsMethod.integerLocals (roundsResolver.initializersOf 0) v := by
  refine ⟨?_, ?_⟩
  · intro x hx
    obtain rfl : x = "n" := List.mem_singleton.mp hx
    exact hn
  · intro i hi _
    obtain rfl := List.mem_singleton.mp hi
    exact ⟨⟨2, some 0, 0, 3⟩, List.mem_singleton_self _, rfl, hend⟩

/-- In the second round the end that the first one left is among the points at the loop head. -/
theorem ofMethod_sound_rounds :
    roundsSource.resolve = .ok roundsClass ∧
    (Resolver.ofOracle roundsClass {} roundsOracle).result = .ok roundsResolver ∧
    roundsBody.ParamsLead ∧ roundsBody.Reachable {} (fun _ => 3) secondRound ∧
    ∃ a node, (ofMethod roundsResolver roundsMethod 0).result = .ok (some a) ∧
    a.node? 1 = some node ∧
      ∀ v, v "n" = 3 → v "AbstractObject0.end" = 3 → node.incoming.Point (a.env.point v) := by
  have hc : roundsSource.resolve = .ok roundsClass := by cbv
  have hr : (Resolver.ofOracle roundsClass {} roundsOracle).result = .ok roundsResolver := by cbv
  have hp : roundsBody.ParamsLead := by decide
  obtain ⟨a, ha⟩ := rounds_analysis
  obtain ⟨node, hnode, hin, -⟩ :=
    ofMethod_sound roundsSource roundsClass {} roundsOracle roundsResolver
    roundsMethod 0 roundsBody a hc hr rfl rfl ha hp (fun _ => 3) secondRound secondRound_reachable
  exact ⟨hc, hr, hp, secondRound_reachable, a, node, ha, hnode,
    fun v hn hend => hin v (secondRound_extended hn hend)⟩

end Analysis

end Lifespan
