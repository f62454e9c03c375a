import Lifespan.Proofs.Numeric.Soundness
import Lifespan.Proofs.PointsTo
import Lifespan.Proofs.Verifier

namespace Lifespan

open Numeric

namespace Body

/-- The machine is about to construct an interval. -/
def Constructs (b : Body) (s : Settings) (args : Nat → Int) (σ : Machine b.size)
    (start finish : Int) :
    Prop :=
  ∃ c first last, b.code.get σ.pc = .call c ∧ s.bounds? c = some (first, last) ∧
    first.Value args σ.ints start ∧ last.Value args σ.ints finish

/-- The machine is about to ask an object of the run, which `k` constructed, about the time `t`. -/
def Asks (b : Body) (s : Settings) (args : Nat → Int) (σ : Machine b.size) (k : Construction b.size)
    (t : Int) : Prop :=
  k ∈ σ.constructions ∧ ∃ c x time o, b.code.get σ.pc = .call c ∧ s.isQuery c = true ∧
    c.receiver = some x ∧ c.args = [time] ∧ time.Value args σ.ints t ∧
    σ.refs x.name = some o ∧ k.object = some o

/-- A query changes nothing. -/
theorem exists_step_of_query (b : Body) {s : Settings} (args : Nat → Int)
    {σ : Machine b.size} {c : Call} (hcode : b.code.get σ.pc = .call c)
    (hquery : s.isQuery c = true) :
    ∃ j, b.Step s args σ .fall (σ.goto j) := by
  obtain ⟨j, hj⟩ := exists_leads_fall (b := b) (i := σ.pc) (by rw [hcode]; rfl)
  have hnone : s.bounds? c = none := by
    rw [Settings.bounds?, if_neg fun hc => Resolver.not_isQuery_of_isInitializer hc hquery]
  have heffect : Effect s args σ (b.code.get σ.pc) .fall σ := hcode ▸ .call hnone
  exact ⟨j, .mk heffect hj⟩

end Body

/-- What a property demands of the instruction that the machine is about to execute. -/
def Property.HoldsAt (b : Body) (s : Settings) (args : Nat → Int) (σ : Machine b.size) :
    Property → Prop
  | startEndOrder => ∀ start finish, b.Constructs s args σ start finish → start ≤ finish
  | afterStart => ∀ k t, b.Asks s args σ k t → k.start ≤ t
  | beforeEnd => ∀ k t, b.Asks s args σ k t → t ≤ k.finish

namespace Machine

variable {n : Nat} {s : Settings} {env : Environment} {locals : List String}
    {inits : List Initializer}
  {b : Body} {σ : Machine n} {x : String} {i : Initializer}

/-- The values of the int locals, and under each ghost variable the end of the latest interval
constructed there. -/
def valuation (σ : Machine n) (inits : List Initializer) (x : String) : Int :=
  match inits.find? fun i => i.ghost == x with
  | none => σ.ints x
  | some i =>
    match σ.constructions.find? fun k => k.index.val == i.site.index with
    | none => σ.ints x
    | some k => k.finish

theorem valuation_of_ne (h : ∀ i ∈ inits, i.ghost ≠ x) : σ.valuation inits x = σ.ints x := by
  have hnone : inits.find? (fun i => i.ghost == x) = none :=
    List.find?_eq_none.mpr fun i hi => by simpa using h i hi
  rw [valuation, hnone]

theorem valuation_of_plain (hx : isQualified x = false) : σ.valuation inits x = σ.ints x := by
  apply valuation_of_ne
  intro i _
  exact (i.ne_ghost hx).symm

theorem valuation_ghost (ctx : Context s env locals inits b) (hi : i ∈ inits)
    (hk : ∃ k ∈ σ.constructions, k.index.val = i.site.index) :
    ∃ k ∈ σ.constructions, k.index.val = i.site.index ∧ σ.valuation inits i.ghost = k.finish := by
  have hfind := find?_key_eq_some ctx.nodup.2.1 hi
  cases h : σ.constructions.find? fun k => k.index.val == i.site.index with
  | none =>
    obtain ⟨k, hk, hindex⟩ := hk
    exact absurd (List.find?_eq_none.mp h k hk) (by simp [hindex])
  | some k =>
    refine ⟨k, List.mem_of_find?_eq_some h, by simpa using List.find?_some h, ?_⟩
    rw [valuation, hfind]
    dsimp only
    rw [h]

theorem extended_valuation (ctx : Context s env locals inits b) :
    σ.Extended locals inits (σ.valuation inits) where
  ints x hx := valuation_of_ne fun i hi => (ctx.nodup.2.2 x hx i hi).symm
  ends _ hi hk := valuation_ghost ctx hi hk

/-- Any interval constructed at an initializer may be the one that its ghost variable keeps. -/
theorem extended_update (ctx : Context s env locals inits b) (hi : i ∈ inits) {k : Construction n}
    (hk : k ∈ σ.constructions) (hindex : k.index.val = i.site.index) :
    σ.Extended locals inits (Function.update (σ.valuation inits) i.ghost k.finish) :=
  have h := extended_valuation (σ := σ) ctx
  .update_ghost ctx hi h.ints (fun _ => ⟨k, hk, hindex, rfl⟩) fun j hj _ => h.ends j hj

end Machine

/-- The construction was made by the initializer, of an object from its allocation. -/
structure Construction.By {n : Nat} (k : Construction n) (i : Initializer) (σ : Machine n) :
    Prop where
  index : k.index.val = i.site.index
  start : k.start = i.start
  finish : ∀ f, i.finish.int? = some f → k.finish = f
  object : ∀ o, k.object = some o → ∃ a, σ.allocations[o]? = some a ∧ i.node = ⟨i.site.method, a⟩

theorem Construction.By.step {n : Nat} {k : Construction n} {i : Initializer} {σ τ : Machine n}
    (h : k.By i σ) {s : Settings} {args : Nat → Int} {instr : Instr n} {e : Edge}
    (effect : Effect s args σ instr e τ) : k.By i τ where
  index := h.index
  start := h.start
  finish := h.finish
  object o ho := by
    obtain ⟨a, ha, hnode⟩ := h.object o ho
    exact ⟨a, effect.getElem?_allocations ha, hnode⟩

/-- The end that query checks see is that of the interval, if the ghost keeps it. -/
theorem Construction.By.eval_finishTerm {n : Nat} {k : Construction n}
    {i : Initializer} {σ : Machine n} (h : k.By i σ) (w : String → Int) :
    i.finishTerm.eval (Function.update w i.ghost k.finish) = k.finish := by
  unfold Initializer.finishTerm
  cases hf : i.finish.int? with
  | some f => exact (h.finish f hf).symm
  | none => exact Function.update_self _ _ _

/-- A method with code of a class that was accepted and analyzed, and no constructor. -/
structure VerifiedMethod (s : Settings) (c : Class) (facts : PointsTo) (r : Resolver) (v : Verifier)
    (id : Nat) (m : Method) (b : Body) : Prop where
  accepted : ∃ src : SourceClass, src.resolve = .ok c
  pointsTo : (PointsTo.ofClass c).result = .ok facts
  registers : r.Registers s facts.nodesAt c.calls
  checks : v.Checks c s r
  analyzed : v.analyses.isSome = true
  method : c.methods[id]? = some m
  ordinary : m.isConstructor = false
  body : m.body = some b
  lead : b.ParamsLead

namespace VerifiedMethod

variable {s : Settings} {c : Class} {facts : PointsTo} {r : Resolver} {v : Verifier} {id : Nat}
  {m : Method} {b : Body} {args : Nat → Int} {σ τ : Machine b.size} {call : Call} {a : Analysis}
  {w : String → Int} {k : Construction b.size} {t : Int}

theorem mem_calls (h : VerifiedMethod s c facts r v id m b) {i : Fin b.size}
    (hcode : b.code.get i = .call call) : (⟨id, i⟩, call) ∈ c.calls := by
  refine Class.mem_calls.mpr ⟨m, b, h.method, h.body, h.ordinary, ?_⟩
  rw [Vector.get_eq_getElem] at hcode
  simp [hcode]

/-- A call that constructs an interval has its initializer. -/
theorem exists_initializer (h : VerifiedMethod s c facts r v id m b) {i : Fin b.size}
    {first last : Expr} (hcode : b.code.get i = .call call)
    (hbounds : s.bounds? call = some (first, last)) :
    ∃ init ∈ r.initializersOf id, init.site = ⟨id, i⟩ ∧ first = .int init.start ∧
    last = init.finish ∧
      ∃ x, call.receiver = some x ∧ (facts.nodesAt ⟨id, i⟩ x).elems = [init.node] := by
  have hmem := h.mem_calls hcode
  obtain ⟨init, hinit, hsite⟩ := h.registers.constructed _ _ hmem (Settings.of_bounds? hbounds).2.1
  obtain ⟨call', hmem', start, x, hbounds', hstart, hx, hnode⟩ := h.registers.initializer init hinit
  rw [hsite] at hmem' hnode
  obtain rfl := Class.eq_of_mem_calls hmem hmem'
  rw [hbounds] at hbounds'
  obtain ⟨rfl, rfl⟩ := Prod.mk.inj (Option.some.inj hbounds')
  refine ⟨init, ?_, hsite, ?_, rfl, x, hx, hnode⟩
  · exact List.mem_filter.mpr ⟨hinit, by simp [hsite]⟩
  · cases first with
    | int n => rw [Option.some.inj hstart]
    | _ => cases hstart

/-- What a call constructs is by its initializer. -/
theorem by_construct (h : VerifiedMethod s c facts r v id m b) (hσ : b.Reachable s args σ)
    (hcode : b.code.get σ.pc = .call call) {first last : Expr}
    (hbounds : s.bounds? call = some (first, last)) {start finish : Int}
    (hfirst : first.Value args σ.ints start) (hlast : last.Value args σ.ints finish) :
    ∃ i ∈ r.initializersOf id,
      Construction.By ⟨σ.pc, call.receiver.bind fun x => σ.refs x.name, start, finish⟩ i σ := by
  obtain ⟨i, hi, hsite, rfl, rfl, x, hx, hnode⟩ := h.exists_initializer hcode hbounds
  refine ⟨i, hi, by rw [hsite], ?_, ?_, ?_⟩
  · cases hfirst
    rfl
  · intro f hf
    cases hfinish : i.finish with
    | int n =>
      rw [hfinish] at hf hlast
      cases hlast
      exact Option.some.inj hf
    | _ =>
      rw [hfinish] at hf
      cases hf
  · -- the points-to facts leave one allocation for the receiver
    intro o ho
    rw [hx] at ho
    obtain ⟨a, ha, hmem⟩ := PointsTo.mem_nodesAt h.pointsTo h.method h.body hσ ho
    rw [hnode] at hmem
    exact ⟨a, ha, by rw [hsite, List.mem_singleton.mp hmem]⟩

/-- Every interval of a run is by an initializer of its method. -/
theorem exists_by (h : VerifiedMethod s c facts r v id m b) (hσ : b.Reachable s args σ) :
    ∀ k ∈ σ.constructions, ∃ i ∈ r.initializersOf id, k.By i σ := by
  induction hσ with
  | start hfresh =>
    intro k hk
    rw [hfresh.constructions] at hk
    cases hk
  | @step σ τ e hσ hstep ih =>
    obtain @⟨τ, j, effect, leads⟩ := hstep
    -- it is enough to know the initializers as of `σ`, since allocations stay
    suffices hafter : ∀ k ∈ τ.constructions, ∃ i ∈ r.initializersOf id, k.By i σ by
      intro k hk
      obtain ⟨i, hi, hby⟩ := hafter k hk
      have hnow := hby.step effect
      exact ⟨i, hi, hnow.index, hnow.start, hnow.finish, hnow.object⟩
    generalize hcode : b.code.get σ.pc = instr at effect
    cases effect with
    | construct hbounds hfirst hlast =>
      intro k hk
      rcases List.mem_cons.mp hk with rfl | hk
      · exact h.by_construct hσ hcode hbounds hfirst hlast
      · exact ih k hk
    | assignRef value _ => cases value <;> exact ih
    | _ => exact ih

theorem ofMethod_eq (h : VerifiedMethod s c facts r v id m b) (ha : v.analysis? id = some a) :
    (Analysis.ofMethod r m id).result = .ok (some a) := by
  obtain ⟨a', ha', hof⟩ := h.checks.analysis? h.analyzed h.method
  rw [← ha, ha', hof]

theorem context (h : VerifiedMethod s c facts r v id m b) (ha : v.analysis? id = some a) :
    Context s a.env m.integerLocals (r.initializersOf id) b := by
  obtain ⟨src, hsrc⟩ := h.accepted
  obtain ⟨env, sol, henv, -, rfl⟩ := (Analysis.ofMethod_eq_ok h.body).mp (h.ofMethod_eq ha)
  exact Analysis.context_of_resolve hsrc h.registers h.method h.body henv

theorem covers_fall (h : VerifiedMethod s c facts r v id m b) (ha : v.analysis? id = some a)
    {node : Dataflow.Node (Octagon a.env.size)} (hnode : a.node? σ.pc = some node)
    (hσ : b.Reachable s args σ) (hstep : b.Step s args σ .fall τ) :
    Covers m.integerLocals (r.initializersOf id) node.fall τ := by
  obtain ⟨src, hsrc⟩ := h.accepted
  obtain ⟨node', hnode', -, hcov⟩ :=
    Analysis.covers_run hsrc h.registers h.method h.body (h.ofMethod_eq ha) h.lead hσ
  rw [hnode] at hnode'
  obtain rfl := Option.some.inj hnode'
  exact hcov .fall τ hstep

/-- The term of an argument has the value of the argument, whatever the ghosts. -/
theorem eval_argument (ctx : Context s a.env m.integerLocals (r.initializersOf id) b)
    (hcode : b.code.get σ.pc = .call call) {e : Expr} (he : e ∈ call.args) {u : Term String}
    (hu : e.term = .ok u) (hvalue : e.Value args σ.ints t)
    (hw : ∀ x, isQualified x = false → w x = σ.ints x) : u.eval w = t := by
  have hplain := ctx.plain σ.pc
  rw [hcode] at hplain
  have hvars := Code.Expr.plain_of_term hu fun y hy =>
    hplain y (List.mem_append_right _ (List.mem_flatMap.mpr ⟨e, he, hy⟩))
  rw [(Code.Expr.value_iff_of_term hu).mp hvalue]
  exact Term.eval_congr fun x hx => hw x (hvars x hx)

/-- The initializer of an interval is among those that any local denoting its object resolves to. -/
theorem mem_resolve (h : VerifiedMethod s c facts r v id m b) (hσ : b.Reachable s args σ)
    {i : Initializer} (hi : i ∈ r.initializersOf id) (hby : k.By i σ) {o : Nat}
    (hobject : k.object = some o) {x : Local} (ho : σ.refs x.name = some o) :
    i ∈ r.resolve ⟨id, σ.pc⟩ x := by
  obtain ⟨hinit, hmethod⟩ := List.mem_filter.mp hi
  obtain ⟨a, ha, hmem⟩ := PointsTo.mem_nodesAt h.pointsTo h.method h.body hσ ho
  obtain ⟨a', ha', hnode⟩ := hby.object o hobject
  rw [ha] at ha'
  obtain rfl := Option.some.inj ha'
  rw [beq_iff_eq.mp hmethod] at hnode
  rw [Resolver.resolve, h.registers.oracle_eq]
  exact List.mem_filterMap.mpr ⟨_, hmem, hnode ▸ h.registers.initializerOf_node hinit⟩

/-- After the check of its initializer, an interval that is about to be constructed is in order. -/
theorem start_le_finish (h : VerifiedMethod s c facts r v id m b) (hσ : b.Reachable s args σ)
    (hdec : ∀ i ∈ r.initializers, (v.ordered i).result = .ok true) {start finish : Int}
    (hmake : b.Constructs s args σ start finish) : start ≤ finish := by
  obtain ⟨call, first, last, hcode, hbounds, hfirst, hlast⟩ := hmake
  obtain ⟨i, hi, hsite, rfl, rfl, -⟩ := h.exists_initializer hcode hbounds
  obtain ⟨a, node, u, ha, hnode, hu, hent⟩ :=
    Verifier.ordered_eq_ok (hdec i (List.mem_filter.mp hi).1)
  rw [hsite] at ha hnode
  have ctx := h.context ha
  obtain ⟨j, hj⟩ := Body.exists_leads_fall (b := b) (i := σ.pc) (by rw [hcode]; rfl)
  have heffect : Effect s args σ (b.code.get σ.pc) .fall (σ.construct call.receiver start finish) :=
    hcode ▸ .construct hbounds hfirst hlast
  have hpoint := h.covers_fall ha hnode hσ (.mk heffect hj) _ (Machine.extended_valuation ctx)
  have hmem : i.finish ∈ call.args := by simp [(Settings.of_bounds? hbounds).2.2]
  cases hfirst
  calc i.start ≤ u.eval _ := Environment.le_of_entailsGe hpoint hent
    _ = finish := eval_argument ctx hcode hmem hu hlast fun x hx => Machine.valuation_of_plain hx

/-- After the check of its query, an interval that is about to be asked has passed the demand, in a
state that holds the time and the end of this very interval. -/
theorem exists_demand (h : VerifiedMethod s c facts r v id m b) (hσ : b.Reachable s args σ)
    {demand : Verifier.Demand} (hdec : (v.queriedAll demand).result = .ok true)
    (hask : b.Asks s args σ k t) :
    ∃ i env, ∃ (d : Octagon env.size) (time : Term String) (w : String → Int), i.start = k.start ∧
      demand ⟨env, d⟩ time i = .ok true ∧ d.Point (env.point w) ∧ time.eval w = t ∧
      i.finishTerm.eval w = k.finish := by
  obtain ⟨hk, call, x, time, o, hcode, hquery, hx, hargs, hvalue, ho, hobject⟩ := hask
  obtain ⟨i, hi, hby⟩ := h.exists_by hσ k hk
  obtain ⟨q, hq, hsite, hreceiver, htime⟩ := h.registers.asked _ _ (h.mem_calls hcode) hquery
  rw [hx] at hreceiver
  obtain rfl := Option.some.inj hreceiver
  rw [hargs] at htime
  obtain rfl := List.singleton_inj.mp htime
  have hlt : q.site.method < v.cls.methods.length := by
    rw [hsite, h.checks.cls]
    exact (List.getElem?_eq_some_iff.mp h.method).1
  obtain ⟨a, node, u, ha, hnode, hu, hdemand, -⟩ := Verifier.queriedAt_eq_ok
    (Verifier.queriedAll_eq_true hdec (h.checks.resolver ▸ hq) hlt)
  rw [h.checks.resolver] at hdemand
  rw [hsite] at ha hnode hdemand
  have ctx := h.context ha
  obtain ⟨j, hstep⟩ := b.exists_step_of_query args hcode hquery
  -- of all the ends that the ghost may keep, take that of `k`
  have hw := Machine.extended_update (σ := σ.goto j) ctx hi hk hby.index
  refine ⟨i, a.env, node.fall, u, _, hby.start.symm,
    hdemand rfl i (h.mem_resolve hσ hi hby hobject ho), h.covers_fall ha hnode hσ hstep _ hw, ?_,
      hby.eval_finishTerm _⟩
  apply eval_argument ctx hcode (by simp [hargs]) hu hvalue
  intro y hy
  rw [Function.update_of_ne (i.ne_ghost hy), Machine.valuation_of_plain hy]
  rfl

/-- A property that was decided to hold does so at every machine of a run. -/
theorem holdsAt (h : VerifiedMethod s c facts r v id m b) (hσ : b.Reachable s args σ) {p : Property}
    (hdec : (v.decide p).result = .ok true) : p.HoldsAt b s args σ := by
  unfold Verifier.decide at hdec
  split at hdec
  · cases p with
    | startEndOrder =>
      intro start finish hmake
      rw [h.checks.resolver] at hdec
      exact h.start_le_finish hσ (Logged.result_allM hdec) hmake
    | afterStart =>
      intro k t hask
      obtain ⟨i, env, d, time, w, hstart, hdemand, hpoint, htime, -⟩ :=
        h.exists_demand hσ hdec hask
      have hle := Environment.le_of_entailsGe hpoint hdemand
      rw [htime] at hle
      rw [← hstart]
      exact hle
    | beforeEnd =>
      intro k t hask
      obtain ⟨i, env, d, time, w, -, hdemand, hpoint, htime, hfinish⟩ :=
        h.exists_demand hσ hdec hask
      have hle := Environment.le_of_entailsGe hpoint hdemand
      rw [htime, hfinish] at hle
      exact hle
  · cases hdec

end VerifiedMethod

/-- A class with one method is analyzed when its method is. -/
theorem Verifier.analyzeMethods_singleton {c : Class} {s : Settings} {r : Resolver}
    {m : Method} {b : Body} {env : Environment} {sol : Dataflow.Solution (Octagon env.size) b.size}
    (hc : c.methods = [m]) (hb : m.body = some b)
    (henv : m.environment (r.initializersOf 0) = .ok env)
    (hsol : ((problem env r 0 b).solve stepLimit).result = .ok sol) :
    ((ofResolver c s r).analyzeMethods .inOrder).result = .ok [some ⟨env, b.size, sol⟩] := by
  have hof : (Analysis.ofMethod r m 0).result = .ok (some ⟨env, b.size, sol⟩) :=
    (Analysis.ofMethod_eq_ok hb).mpr ⟨env, sol, henv, hsol, rfl⟩
  apply analyzeMethods_eq_ok.mpr
  rw [ofResolver, hc]
  exact congrArg (fun x => [x]) hof

/-- Verification is sound. Take any accepted class, any settings and a property that is reported
safe. In every run of a method that is no constructor, of any length and with any arguments, the
property holds at every instruction that is about to be executed. -/
theorem Class.verify_sound (src : SourceClass) (c : Class) (s : Settings) (ps : List Property)
    (report : Report) (p : Property) (m : Method) (b : Body) (hc : src.resolve = .ok c)
    (hreport : (c.verify s ps).result = .ok report) (hsafe : (p, .safe) ∈ report.verdicts)
    (hm : m ∈ c.methods) (hname : m.isConstructor = false) (hb : m.body = some b)
    (hp : b.ParamsLead) (args : Nat → Int) (σ : Machine b.size) (hσ : b.Reachable s args σ) :
    p.HoldsAt b s args σ := by
  obtain ⟨facts, r, v, hfacts, hr, hchecks, hsome, hdec⟩ := Verifier.decided_of_verify hreport hsafe
  obtain ⟨id, hid⟩ := List.mem_iff_getElem?.mp hm
  have hmethod : VerifiedMethod s c facts r v id m b :=
    ⟨⟨src, hc⟩, hfacts, Resolver.registers_of_ofOracle hr, hchecks, hsome, hid, hname, hb, hp⟩
  exact hmethod.holdsAt hσ hdec

/-- An interval up to the argument, asked about both its ends under another name. -/
def spanSource : SourceClass where
  name := "Span"
  methods := [{
    name := "run"
    params := [.int]
    locals := ((FinMap.empty.insert "last" .int).insert "o" (.object "Interval")).insert "p"
      (.object "Interval")
    body := some [
      .assign (.var "last") (.param 0),
      .branch (.compare .lt (.var "last") (.int 0)) 7,
      .assign (.var "o") (.new "Interval"),
      .call ⟨.special, "Interval", "<init>", some "o", [.int 0, .var "last"]⟩,
      .assign (.var "p") (.var "o"),
      .call ⟨.virtual, "Interval", "query", some "p", [.int 0]⟩,
      .call ⟨.virtual, "Interval", "query", some "p", [.var "last"]⟩,
      .returnVoid] }]

def spanBody : Body where
  size := 8
  code :=
    let last : Local := ⟨"last", .int⟩
    let o : Local := ⟨"o", .object "Interval"⟩
    let p : Local := ⟨"p", .object "Interval"⟩
    #v[.assign (.var last) (.param ⟨0, .int⟩),
      .branch (.compare .lt (.var last) (.int 0)) 7,
      .assign (.var o) (.new "Interval"),
      .call ⟨.special, "Interval", "<init>", some o, [.int 0, .var last]⟩,
      .assign (.var p) (.var o),
      .call ⟨.virtual, "Interval", "query", some p, [.int 0]⟩,
      .call ⟨.virtual, "Interval", "query", some p, [.var last]⟩,
      .returnVoid]
  pos := by decide
  ends := rfl

def spanMethod : Method := ⟨"run", [.int], some spanBody⟩

def spanClass : Class := ⟨"Span", [spanMethod]⟩

def spanFacts : PointsTo :=
  let made : References := FinMap.empty.insert "o" (FinSet.single ⟨0, 2⟩)
  let copied := made.insert "p" (FinSet.single ⟨0, 2⟩)
  ⟨[#[FinMap.empty, FinMap.empty, FinMap.empty, made, made, copied, copied, copied]]⟩

def spanResolver : Resolver :=
  (Resolver.start spanFacts.nodesAt).push ⟨0, 3⟩ ⟨0, 2⟩ 0 (.var ⟨"last", .int⟩)
    |>.ask ⟨⟨0, 5⟩, ⟨"p", .object "Interval"⟩, .int 0⟩
    |>.ask ⟨⟨0, 6⟩, ⟨"p", .object "Interval"⟩, .var ⟨"last", .int⟩⟩

def spanEnvironment : Environment := .ofNodup ["last", "AbstractObject0.end"] (by decide)

/-- The verifier once it has the states of the method. -/
def spanVerifier (sol : Dataflow.Solution (Octagon spanEnvironment.size) 8) (p : Property) :
    Verifier :=
  ⟨spanClass, {}, spanResolver, some [some ⟨spanEnvironment, 8, sol⟩], [p]⟩

theorem span_decide (p : Property) :
    ∃ sol, ((problem spanEnvironment spanResolver 0 spanBody).solve stepLimit).result = .ok sol ∧
      ((spanVerifier sol p).decide p).result = .ok true := by
  have hhead : ∀ i, spanBody.graph.loopHeads.contains i = false :=
    Graph.contains_loopHeads_of_all (by cbv)
  have hcycle : ∀ i, spanBody.graph.onCycle.contains i = false :=
    Graph.contains_onCycle_of_all (by cbv)
  apply Logged.result_bind_ok.mp
  apply Logged.result_of_toOption
  -- without loop heads and cycles, the kernel runs the iteration and the checks
  simp only [Dataflow.Problem.solve, Dataflow.Problem.start, problem, hhead, hcycle]
  cases p <;> decide +kernel

theorem span_pointsTo : (PointsTo.ofClass spanClass).result = .ok spanFacts := by cbv

theorem span_resolver :
    (Resolver.ofOracle spanClass {} spanFacts.nodesAt).result = .ok spanResolver := by
  cbv

theorem span_verify (p : Property) :
    (spanClass.verify {} [p]).result = .ok ⟨"Span", [(p, .safe)]⟩ := by
  obtain ⟨sol, hsol, hdec⟩ := span_decide p
  have hall := Verifier.analyzeMethods_singleton (c := spanClass) (s := {}) rfl rfl rfl hsol
  exact Verifier.verify_of_decide span_pointsTo span_resolver hall hdec

/-- About to ask the interval up to 3. -/
def askedSpan : Machine 8 where
  pc := 6
  ints := Function.update (fun _ => 0) "last" 3
  refs := Function.update (Function.update (fun _ => none) "o" (some 0)) "p" (some 0)
  allocations := [2]
  constructions := [⟨3, some 0, 0, 3⟩]

theorem askedSpan_reachable : spanBody.Reachable {} (fun _ => 3) askedSpan := by
  have h0 : spanBody.Reachable {} (fun _ => 3) ⟨(0 : Fin 8), fun _ => 0, fun _ => none, [], []⟩ :=
    .start ⟨rfl, fun _ => rfl, rfl, rfl⟩
  have l0 : spanBody.Leads (0 : Fin 8) .fall (1 : Fin 8) := rfl
  have l1 : spanBody.Leads (1 : Fin 8) .fall (2 : Fin 8) := rfl
  have l2 : spanBody.Leads (2 : Fin 8) .fall (3 : Fin 8) := rfl
  have l3 : spanBody.Leads (3 : Fin 8) .fall (4 : Fin 8) := rfl
  have l4 : spanBody.Leads (4 : Fin 8) .fall (5 : Fin 8) := rfl
  have l5 : spanBody.Leads (5 : Fin 8) .fall (6 : Fin 8) := rfl
  have h1 := h0.step (.mk (.assignInt rfl (.param rfl)) l0)
  have h2 := h1.step (.mk (.pass (.compare .lt (.var rfl) (.int 0))) l1)
  have h3 := h2.step (.mk (.assignRef (.new "Interval") rfl) l2)
  have h4 := h3.step (.mk (.construct rfl (.int 0) (.var rfl)) l3)
  have h5 := h4.step (.mk (.assignRef (.var ⟨"o", .object "Interval"⟩) rfl) l4)
  have h6 := h5.step (.mk (.call rfl) l5)
  exact h6

theorem askedSpan_asks : spanBody.Asks {} (fun _ => 3) askedSpan ⟨(3 : Fin 8), some 0, 0, 3⟩ 3 :=
  ⟨List.mem_singleton_self _, _, ⟨"p", .object "Interval"⟩, .var ⟨"last", .int⟩, 0, rfl,
    by decide, rfl, rfl, .var rfl, rfl, rfl⟩

/-- All three properties are safe here, and the run asks its interval about the very end. -/
theorem Class.verify_sound_span :
    spanSource.resolve = .ok spanClass ∧
    (∀ p, (spanClass.verify {} [p]).result = .ok ⟨"Span", [(p, .safe)]⟩) ∧
    spanBody.ParamsLead ∧ spanBody.Reachable {} (fun _ => 3) askedSpan ∧
    spanBody.Asks {} (fun _ => 3) askedSpan ⟨(3 : Fin 8), some 0, 0, 3⟩ 3 ∧
    ∀ p : Property, p.HoldsAt spanBody {} (fun _ => 3) askedSpan := by
  have hc : spanSource.resolve = .ok spanClass := by cbv
  have hp : spanBody.ParamsLead := by decide
  refine ⟨hc, span_verify, hp, askedSpan_reachable, askedSpan_asks, ?_⟩
  intro p
  exact verify_sound spanSource spanClass {} [p] _ p spanMethod spanBody hc (span_verify p)
    (List.mem_singleton_self _) (List.mem_singleton_self _) (by decide)
      rfl hp (fun _ => 3) askedSpan
    askedSpan_reachable

end Lifespan
