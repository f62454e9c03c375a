import Lifespan.Proofs.CopyChains
import Lifespan.Proofs.Initializers
import Lifespan.Proofs.Requests

namespace Lifespan

theorem Initializer.eq_ghost_of_mem_vars {i : Initializer} {x : String}
    (h : x ∈ i.finishTerm.vars) :
    x = i.ghost := by
  unfold finishTerm at h
  split at h
  · cases h
  · exact List.mem_singleton.mp h

/-- What a local may denote was allocated in the same method. -/
theorem PointsTo.method_of_mem_nodesAt {src : SourceClass} {c : Class} {p : PointsTo}
    (hc : src.resolve = .ok c) (hp : (ofClass c).result = .ok p) {site a : Site} {x : Local}
    (h : a ∈ (p.nodesAt site x).elems) :
    a.method = site.method := by
  cases hbody : c.methods[site.method]?.bind Method.body with
  | none =>
    rw [nodesAt_of_no_body hp hbody] at h
    exact absurd h (FinSet.not_mem_elems_empty a)
  | some b =>
    obtain ⟨m, hm, hb⟩ := Option.bind_eq_some_iff.mp hbody
    obtain ⟨sol, hsol, hwithin, hpast⟩ := nodesAt_eq hp hm hb
    by_cases hlt : site.index < b.size
    · rw [hwithin ⟨site.index, hlt⟩ x] at h
      have htyped := SourceClass.typed_of_resolve hc (List.mem_of_getElem? hm) hb
      obtain ⟨q, rfl, -⟩ := Body.exists_copyChain_of_mayBe hsol htyped h
      rfl
    · rw [hpast site.index (Nat.le_of_not_lt hlt)] at h
      exact absurd h (FinSet.not_mem_elems_empty a)

/-- A method with code that was analyzed has the states of its analysis. -/
theorem Verifier.Checks.exists_analysis {s : Settings} {c : Class} {r : Resolver} {v : Verifier}
    (h : v.Checks c s r) (hsome : v.analyses.isSome = true) {id : Nat} {m : Method} {b : Body}
    (hm : c.methods[id]? = some m) (hb : m.body = some b) :
    ∃ env sol, m.environment (r.initializersOf id) = .ok env ∧
      ((Numeric.problem env r id b).solve Numeric.stepLimit).result = .ok sol ∧
      v.analysis? id = some ⟨env, b.size, sol⟩ := by
  obtain ⟨a, ha, hof⟩ := h.analysis? hsome hm
  cases a with
  | none =>
    simp only [Analysis.ofMethod, hb, Logged.result_map_ok] at hof
    obtain ⟨a, -, hnone⟩ := hof
    cases hnone
  | some a =>
    obtain ⟨env, sol, henv, hsol, rfl⟩ := (Analysis.ofMethod_eq_ok hb).mp hof
    exact ⟨env, sol, henv, hsol, ha⟩

/-- A verifier that has analyzed an accepted class, with the points-to facts of the class. -/
structure Verifier.Ready (s : Settings) (c : Class) (r : Resolver) (v : Verifier) : Prop where
  accepted : ∃ src : SourceClass, src.resolve = .ok c
  resolved : (Resolver.ofClass c s).result = .ok r
  checks : v.Checks c s r
  analyzed : v.analyses.isSome = true

/-- Why a query cannot be decided: its time has no term, or mentions an int local that its method
does not assign, or no interval is known for its receiver. -/
inductive Query.Blocked (v : Verifier) (q : Query) : Error → Prop
  | time {e : Error} (fails : q.time.term = .error e) : Blocked v q e
  | unknown {a : Analysis} {x : Local} (analysis : v.analysis? q.site.method = some a)
    (occurs : x ∈ q.time.locals) (int : x.ty = .int) (outside : x.name ∉ a.env.vars) :
    Blocked v q (.domain (.unknown x.name))
  | unresolved (none : v.resolver.resolve q.site q.receiver = [])
    (strict : v.settings.allowUnresolved = false) :
    Blocked v q (.unsupported (.unresolvedReceiver q.receiver q.site))

namespace Verifier.Ready

variable {s : Settings} {c : Class} {r : Resolver} {v : Verifier} {site : Site} {call : Call}
  {i : Initializer} {q : Query} {e : Error}

theorem exists_facts (h : v.Ready s c r) : ∃ facts, (PointsTo.ofClass c).result = .ok facts ∧
    (Resolver.ofOracle c s facts.nodesAt).result = .ok r :=
  Logged.result_bind_ok.mp h.resolved

/-- Every call lies in a method that was analyzed. -/
theorem exists_analysis (h : v.Ready s c r) (hcall : (site, call) ∈ c.calls) :
    ∃ m b env sol, ∃ k : Fin b.size, c.methods[site.method]? = some m ∧ m.body = some b ∧
      site = ⟨site.method, k⟩ ∧ b.code.get k = .call call ∧
      m.environment (r.initializersOf site.method) = .ok env ∧
      ((Numeric.problem env r site.method b).solve Numeric.stepLimit).result = .ok sol ∧
      v.analysis? site.method = some ⟨env, b.size, sol⟩ := by
  obtain ⟨m, b, hm, hb, -, hcode⟩ := Class.mem_calls.mp hcall
  obtain ⟨hlt, hget⟩ := List.getElem?_eq_some_iff.mp hcode
  have hlt : site.index < b.size := by simpa using hlt
  obtain ⟨env, sol, henv, hsol, ha⟩ := h.checks.exists_analysis h.analyzed hm hb
  exact ⟨m, b, env, sol, ⟨site.index, hlt⟩, hm, hb, rfl, by
    simpa [Vector.get_eq_getElem] using hget, henv, hsol, ha⟩

theorem exists_stateAfter (h : v.Ready s c r) (hcall : (site, call) ∈ c.calls) :
    ∃ a node, v.analysis? site.method = some a ∧ v.stateAfter site = .ok ⟨a.env, node⟩ := by
  obtain ⟨m, b, env, sol, k, -, -, hsite, -, -, -, ha⟩ := h.exists_analysis hcall
  refine ⟨_, (sol.nodes.get k).fall, ha, ?_⟩
  rw [hsite] at ha ⊢
  refine Except.bind_eq_ok.mpr ⟨_, analysisOf_eq_ok.mpr ha, fallAfter_eq_ok.mpr ⟨_, ?_, rfl⟩⟩
  simp [Analysis.node?, Vector.get_eq_getElem]

/-- The end of an interval has a term over the variables of its method, and its ghost is one
of them. -/
theorem exists_finish (h : v.Ready s c r) (hi : i ∈ r.initializers) :
    ∃ a t, v.analysis? i.site.method = some a ∧ i.finish.term = .ok t ∧
    (∀ x ∈ t.vars, x ∈ a.env.vars) ∧
      i.ghost ∈ a.env.vars := by
  obtain ⟨facts, -, hr⟩ := h.exists_facts
  obtain ⟨call, hcall, start, x, hbounds, -⟩ := (Resolver.registers_of_ofOracle hr).initializer i hi
  obtain ⟨m, b, env, sol, k, -, -, hsite, hcode, -, hsol, ha⟩ := h.exists_analysis hcall
  -- settled means that the transfer of the call has given a state, whether or not the call is
  -- reached
  obtain ⟨out, hout, -⟩ := (Dataflow.Problem.settled_of_solve Octagon.same_refl hsol k).produced
  have hat : r.initializerAt ⟨i.site.method, k⟩ = some i :=
    (Resolver.numbers_of_ofOracle hr).initializerAt_eq_some.mpr ⟨hi, hsite⟩
  change Numeric.transfer env (r.initializerAt ⟨i.site.method, k⟩) (b.graph.isOnCycle k)
    (b.code.get k) _ =
    .ok out at hout
  rw [hat, hcode] at hout
  obtain ⟨d, hd, -⟩ := Except.bind_eq_ok.mp hout
  rcases Numeric.call_cases hd with ⟨hkind, -⟩ | ⟨hnone, -⟩ | ⟨j, hj, hd⟩
  · have hspecial := (Settings.isInitializer_iff.mp (Settings.of_bounds? hbounds).2.1).1
    rw [hkind] at hspecial
    cases hspecial
  · cases hnone
  · obtain rfl := Option.some.inj hj
    obtain ⟨t, ht, hd⟩ := Except.bind_eq_ok.mp hd
    obtain ⟨d', hd', -⟩ := Except.bind_eq_ok.mp hd
    obtain ⟨hghost, hvars⟩ := Environment.mem_of_assign hd'
    exact ⟨_, t, ha, ht, hvars, hghost⟩

theorem exists_ordered (h : v.Ready s c r) (hi : i ∈ r.initializers) :
    ∃ holds, (v.ordered i).result = .ok holds := by
  obtain ⟨facts, -, hr⟩ := h.exists_facts
  obtain ⟨call, hcall, -⟩ := (Resolver.registers_of_ofOracle hr).initializer i hi
  obtain ⟨a, node, ha, hstate⟩ := h.exists_stateAfter hcall
  obtain ⟨a', t, ha', ht, hvars, -⟩ := h.exists_finish hi
  rw [ha] at ha'
  obtain rfl := Option.some.inj ha'
  cases hent : a.env.entailsGe node t (.const i.start) with
  | error e =>
    obtain ⟨x, hx, hout, -⟩ := Environment.entailsGe_eq_error hent
    rw [Term.vars, List.append_nil] at hx
    exact absurd (hvars x hx) hout
  | ok holds =>
    refine ⟨holds, Logged.result_bind_ok.mpr ⟨_, hstate, ?_⟩⟩
    refine Logged.result_bind_ok.mpr ⟨t, ht, ?_⟩
    exact Logged.result_bind_ok.mpr ⟨holds, hent, Logged.result_bind_ok.mpr ⟨(), rfl, rfl⟩⟩

/-- A reference resolves to intervals of its own method. -/
theorem method_of_mem_resolve (h : v.Ready s c r) {x : Local} (hi : i ∈ r.resolve site x) :
    i ∈ r.initializers ∧ i.site.method = site.method := by
  obtain ⟨src, hsrc⟩ := h.accepted
  obtain ⟨facts, hfacts, hr⟩ := h.exists_facts
  have hreg := Resolver.registers_of_ofOracle hr
  obtain ⟨hi, hnode⟩ := hreg.mem_resolve_iff.mp hi
  obtain ⟨call, -, start, y, -, -, -, helems⟩ := hreg.initializer i hi
  have hown : i.node ∈ (facts.nodesAt i.site y).elems := helems ▸ List.mem_singleton_self i.node
  refine ⟨hi, ?_⟩
  rw [← PointsTo.method_of_mem_nodesAt hsrc hfacts hown, PointsTo.method_of_mem_nodesAt
    hsrc hfacts hnode]

/-- The ghost of every interval that a query may be about is a variable of the state of
the query. -/
theorem exists_ghosts (h : v.Ready s c r) (hq : q ∈ r.queries) :
    ∃ a node, v.analysis? q.site.method = some a ∧ v.stateAfter q.site = .ok ⟨a.env, node⟩ ∧
      ∀ i ∈ r.resolve q.site q.receiver, i.site.method = q.site.method ∧ i.ghost ∈ a.env.vars := by
  obtain ⟨facts, -, hr⟩ := h.exists_facts
  obtain ⟨call, hcall, -⟩ := Resolver.exists_call_of_query hr q hq
  obtain ⟨a, node, ha, hstate⟩ := h.exists_stateAfter hcall
  refine ⟨a, node, ha, hstate, fun i hi => ?_⟩
  obtain ⟨hi, hmethod⟩ := h.method_of_mem_resolve hi
  obtain ⟨a', -, ha', -, -, hghost⟩ := h.exists_finish hi
  rw [hmethod, ha] at ha'
  obtain rfl := Option.some.inj ha'
  exact ⟨hmethod, hghost⟩

/-- A demand that fails for unknown variables of the time alone. -/
theorem blocked_of_queried (h : v.Ready s c r) (hq : q ∈ r.queries)
    {demand : Demand}
    (hdemand : ∀ state time i e, i.ghost ∈ state.env.vars → demand state time i = .error e →
      ∃ x ∈ time.vars, x ∉ state.env.vars ∧ e = .domain (.unknown x))
    (he : (v.queriedAt demand q).result = .error e) : q.Blocked v e := by
  obtain ⟨a, node, ha, hstate, hghosts⟩ := h.exists_ghosts hq
  rcases queriedAt_eq_error he with he | he | he | ⟨state, time, hstate', htime, i, hi, he⟩
  · rw [hstate] at he
    cases he
  · exact .time he
  · obtain ⟨hnil, hstrict, rfl⟩ := receivers_eq_error he
    exact .unresolved hnil hstrict
  · rw [hstate] at hstate'
    obtain rfl := Except.ok.inj hstate'
    rw [h.checks.resolver] at hi
    obtain ⟨x, hx, hout, rfl⟩ := hdemand _ _ _ _ (hghosts i hi).2 he
    obtain ⟨y, hy, rfl, hint⟩ := Code.Expr.mem_locals_of_term htime hx
    exact .unknown ha hy hint hout

theorem exists_blocked (h : v.Ready s c r) {σ : Schedule} {p : Property}
    (he : answerBy c s r σ p = .error e) :
    p ≠ .startEndOrder ∧ ∃ q ∈ r.queries, q.Blocked v e := by
  have hchecks : Checks c s r { v with analyzed := [p] } :=
    ⟨h.checks.cls, h.checks.settings, h.checks.resolver, h.checks.analyses⟩
  rw [← hchecks.result_decide (List.mem_singleton_self p) h.analyzed σ] at he
  unfold decide at he
  rw [if_pos (List.mem_singleton_self p)] at he
  have hresolver := h.checks.resolver
  cases p with
  | startEndOrder =>
    obtain ⟨i, hi, he⟩ := Logged.allM_eq_error he
    obtain ⟨holds, hok⟩ := h.exists_ordered (hresolver ▸ hi)
    cases hok.symm.trans he
  | afterStart =>
    obtain ⟨q, hq, he⟩ := queriedAll_eq_error he
    have hq : q ∈ r.queries := hresolver ▸ hq
    refine ⟨by simp, q, hq, h.blocked_of_queried hq ?_ he⟩
    intro state time i e _ he
    obtain ⟨x, hx, hout⟩ := Environment.entailsGe_eq_error he
    rw [Term.vars, List.append_nil] at hx
    exact ⟨x, hx, hout⟩
  | beforeEnd =>
    obtain ⟨q, hq, he⟩ := queriedAll_eq_error he
    have hq : q ∈ r.queries := hresolver ▸ hq
    refine ⟨by simp, q, hq, h.blocked_of_queried hq ?_ he⟩
    intro state time i e hghost he
    obtain ⟨x, hx, hout, rfl⟩ := Environment.entailsGe_eq_error he
    rcases List.mem_append.mp hx with hx | hx
    · -- the end is a literal or the ghost
      have hx : x = i.ghost := i.eq_ghost_of_mem_vars hx
      exact absurd (hx ▸ hghost) hout
    · exact ⟨x, hx, hout, rfl⟩

end Verifier.Ready

/-- Once a class is analyzed, whatever is asked before and after, a check fails for a query only,
and only because of its time or of an unresolved receiver. The order of bounds can always be
decided. Each query and each interval lies in an analyzed method, and the intervals that a query may
be about lie in the method of the query, which keeps their ends. -/
theorem Verifier.blocked_of_check (src : SourceClass) (c : Class) (s : Settings) (r : Resolver)
    (earlier later : List Request) (σ : Schedule) (p₀ : Property) (v w : Verifier)
    (hc : src.resolve = .ok c) (hr : (Resolver.ofClass c s).result = .ok r)
    (hv : v = (ofResolver c s r).afterAll earlier) (hrun : (v.runBy σ p₀).2.result = .ok ())
    (hw : w = (v.runBy σ p₀).1.afterAll later) :
    (∀ σ', ∃ holds, (w.checkBy σ' .startEndOrder).2.result = .ok holds) ∧
    (∀ σ' p e, (w.checkBy σ' p).2.result = .error e → ∃ q ∈ r.queries, q.Blocked w e) ∧
    (∀ σ' p id, (w.checkBy σ' p).2.result ≠ .error (.invariant (.notAnalyzed id))) ∧
    (∀ i ∈ r.initializers, ∃ state, w.stateAfter i.site = .ok state) ∧
    ∀ q ∈ r.queries, ∃ a node, w.analysis? q.site.method = some a ∧
    w.stateAfter q.site = .ok ⟨a.env, node⟩ ∧
      ∀ i ∈ r.resolve q.site q.receiver, i.site.method = q.site.method ∧ i.ghost ∈ a.env.vars := by
  have hserves : w.Serves c s r := by
    rw [hw, hv]
    exact (((serves_ofResolver c s r).afterAll earlier).after (.run σ p₀)).afterAll later
  have hprepared : p₀ ∈ w.analyzed := by
    rw [hw]
    exact mem_analyzed_afterAll.mpr (.inl ((mem_analyzed_of_run hrun).mpr (.inr rfl)))
  have hready := Ready.mk ⟨src, hc⟩ hr hserves.checks (hserves.prepared p₀ hprepared)
  simp only [hserves.checks.result_checkBy]
  refine ⟨fun σ' => ?_, fun σ' p e he => (hready.exists_blocked he).2, fun σ' p id he => ?_,
    fun i hi => ?_, fun q hq => hready.exists_ghosts hq⟩
  · cases hanswer : answerBy c s r σ' .startEndOrder with
    | error e => exact absurd rfl (hready.exists_blocked hanswer).1
    | ok holds => exact ⟨holds, rfl⟩
  · obtain ⟨q, -, hblocked⟩ := (hready.exists_blocked he).2
    cases hblocked with
    | time fails =>
      obtain ⟨u, hu⟩ := Code.Expr.term_eq_error fails
      cases hu
  · obtain ⟨facts, -, hr⟩ := hready.exists_facts
    obtain ⟨call, hcall, -⟩ := (Resolver.registers_of_ofOracle hr).initializer i hi
    obtain ⟨a, node, -, hstate⟩ := hready.exists_stateAfter hcall
    exact ⟨_, hstate⟩

namespace Verifier

/-- A query about a time that is never assigned. -/
def straySource : SourceClass where
  name := "Stray"
  methods := [{
    name := "run"
    params := []
    locals := (FinMap.empty.insert "n" .int).insert "o" (.object "Interval")
    body := some [
      .assign (.var "o") (.new "Interval"),
      .call ⟨.special, "Interval", "<init>", some "o", [.int 0, .int 5]⟩,
      .call ⟨.virtual, "Interval", "query", some "o", [.var "n"]⟩,
      .returnVoid] }]

def strayBody : Body where
  size := 4
  code :=
    let n : Local := ⟨"n", .int⟩
    let o : Local := ⟨"o", .object "Interval"⟩
    #v[.assign (.var o) (.new "Interval"),
      .call ⟨.special, "Interval", "<init>", some o, [.int 0, .int 5]⟩,
      .call ⟨.virtual, "Interval", "query", some o, [.var n]⟩,
      .returnVoid]
  pos := Nat.zero_lt_succ _
  ends := Eq.refl false

def strayClass : Class := ⟨"Stray", [⟨"run", [], some strayBody⟩]⟩

def strayFacts : PointsTo :=
  let made : References := FinMap.empty.insert "o" (FinSet.single ⟨0, 0⟩)
  ⟨[#[FinMap.empty, made, made, made]]⟩

def strayResolver : Resolver :=
  (Resolver.start strayFacts.nodesAt).push ⟨0, 1⟩ ⟨0, 0⟩ 0 (.int 5)
    |>.ask ⟨⟨0, 2⟩, ⟨"o", .object "Interval"⟩, .var ⟨"n", .int⟩⟩

theorem stray_resolver : (Resolver.ofClass strayClass {}).result = .ok strayResolver := by
  have hfacts : (PointsTo.ofClass strayClass).result = .ok strayFacts := by cbv
  exact Logged.result_bind_ok.mpr ⟨strayFacts, hfacts, by cbv⟩

def strayEnvironment : Environment := .ofNodup ["AbstractObject0.end"] (by decide)

theorem stray_analyzed : ∃ sol,
    ((ofResolver strayClass {} strayResolver).analyzeMethods .inOrder).result =
      .ok [some ⟨strayEnvironment, 4, sol⟩] := by
  have hsolve : ∃ sol, ((Numeric.problem strayEnvironment strayResolver 0 strayBody).solve
      Numeric.stepLimit).result = .ok sol := by
    apply Logged.exists_of_isOk
    have hhead : ∀ i, strayBody.graph.loopHeads.contains i = false :=
      Graph.contains_loopHeads_of_all (by cbv)
    have hcycle : ∀ i, strayBody.graph.onCycle.contains i = false :=
      Graph.contains_onCycle_of_all (by cbv)
    simp only [Dataflow.Problem.solve, Dataflow.Problem.start, Numeric.problem, hhead, hcycle]
    decide +kernel
  obtain ⟨sol, hsol⟩ := hsolve
  exact ⟨sol, analyzeMethods_singleton rfl rfl rfl hsol⟩

/-- The order of bounds is decided here, and the query fails for the local that is
never assigned. -/
theorem blocked_of_check_stray :
    straySource.resolve = .ok strayClass ∧
    (Resolver.ofClass strayClass {}).result = .ok strayResolver ∧
    ((ofResolver strayClass {} strayResolver).run .beforeEnd).2.result = .ok () ∧
    ∃ v, v = ((ofResolver strayClass {} strayResolver).run .beforeEnd).1 ∧
      (∃ holds, (v.check .startEndOrder).2.result = .ok holds) ∧
      (v.check .afterStart).2.result = .error (.domain (.unknown "n")) ∧
      ∃ q ∈ strayResolver.queries, q.Blocked v (.domain (.unknown "n")) := by
  have hc : straySource.resolve = .ok strayClass := by cbv
  obtain ⟨sol, hsol⟩ := stray_analyzed
  have hfresh := serves_ofResolver strayClass {} strayResolver
  have hrun : ((ofResolver strayClass {} strayResolver).run .beforeEnd).2.result = .ok () :=
    hfresh.checks.runBy_eq_ok.mpr ⟨_, hsol⟩
  obtain ⟨hordered, hblocked, -⟩ :=
    blocked_of_check straySource strayClass {} strayResolver [] [] .inOrder .beforeEnd _ _ hc
    stray_resolver rfl hrun rfl
  have hfails : answerBy strayClass {} strayResolver .inOrder .afterStart =
      .error (.domain (.unknown "n")) := by
    rw [answerBy, hsol]
    rfl
  have hcheck := ((hfresh.checks.runBy hrun).1.result_checkBy .inOrder .afterStart).trans hfails
  exact ⟨hc, stray_resolver, hrun, _, rfl, hordered .inOrder, hcheck, hblocked _ _ _ hcheck⟩

end Verifier

end Lifespan
