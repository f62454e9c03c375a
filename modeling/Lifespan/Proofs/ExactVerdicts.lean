import Lifespan.Proofs.Failures
import Lifespan.Proofs.Numeric.Tracking

namespace Lifespan

open Numeric

namespace Effect

variable {n : Nat} {s : Settings} {args : Nat → Int} {σ τ : Machine n} {e : Edge}

theorem refs_eq {instr : Instr n} {x : String} (h : Effect s args σ instr e τ)
    (hx : ∀ y value, instr = .assign (.var y) value → y.name ≠ x) : τ.refs x = σ.refs x := by
  cases h with
  | assignRef value _ =>
    have hne := (hx _ _ rfl).symm
    cases value <;> exact Function.update_of_ne hne _ _
  | _ => rfl

end Effect

namespace Body

variable {b : Body} {s : Settings} {args : Nat → Int} {σ : Machine b.size}

/-- On a line, a reference that a chain of copies leads to denotes the object that was
allocated there. -/
theorem CopyChain.exists_object (hline : b.graph.IsLine)
    (hσ : b.Reachable s args σ) {p : Fin b.size} {x : String} (h : b.CopyChain p σ.pc x) :
    ∃ o, σ.refs x = some o ∧ σ.allocations[o]? = some p := by
  induction hσ generalizing x with
  | start hfresh =>
    have hno : ∀ q, ¬ b.graph.Adj q _ := fun q hq => by
      have hpc := hline.adj_iff.mp hq
      rw [hfresh.pc] at hpc
      cases hpc
    cases h with
    | new _ edge => exact absurd edge (hno _)
    | keep _ edge _ => exact absurd edge (hno _)
    | copy _ edge _ => exact absurd edge (hno _)
  | @step σ τ e _ hstep ih =>
    have hadj : b.graph.Adj σ.pc τ.pc := Graph.adj_iff.mpr ⟨e, hstep.adj⟩
    -- the chain came through the same instruction as the run
    have hsame : ∀ q, b.graph.Adj q τ.pc → q = σ.pc := fun q hq => by
      have hq := hline.adj_iff.mp hq
      have hpc := hline.adj_iff.mp hadj
      exact Fin.ext (by omega)
    obtain ⟨effect, leads⟩ := hstep
    cases h with
    | new allocates edge =>
      obtain ⟨y, value, hcode, rfl, hty, halloc⟩ := allocates
      obtain rfl := hsame _ edge
      rw [hcode] at effect
      obtain rfl := effect.eq_setRef hty
      cases value with
      | new | newArray =>
        exact ⟨σ.allocations.length, Function.update_self _ _ _, List.getElem?_concat_length⟩
      | _ => cases halloc
    | keep chain edge kept =>
      obtain rfl := hsame _ edge
      obtain ⟨o, ho, ha⟩ := ih chain
      refine ⟨o, ?_, effect.getElem?_allocations ha⟩
      exact (effect.refs_eq fun y value hcode hy => kept ⟨y, value, hcode, hy⟩).trans ho
    | copy chain edge copied =>
      obtain rfl := hsame _ edge
      obtain ⟨o, ho, ha⟩ := ih chain
      obtain ⟨z, w, hcode, rfl, rfl, hty⟩ := copied
      refine ⟨o, ?_, effect.getElem?_allocations ha⟩
      rw [hcode] at effect
      obtain rfl := effect.eq_setRef hty
      exact (Function.update_self _ _ _).trans ho

/-- On a line an instruction constructs at most one interval. -/
theorem Reachable.nodup_index (hσ : b.Reachable s args σ) (hline : b.graph.IsLine) :
    (σ.constructions.map Construction.index).Nodup := by
  induction hσ with
  | start h =>
    rw [h.constructions]
    exact List.nodup_nil
  | @step σ τ e hσ h ih =>
    obtain @⟨τ, j, effect, leads⟩ := h
    change (τ.constructions.map Construction.index).Nodup
    rcases effect.constructions_cases with hsame | ⟨k, hk, hcons⟩
    · rwa [hsame]
    · rw [hcons, List.map_cons, List.nodup_cons, hk]
      refine ⟨fun hmem => ?_, ih⟩
      obtain ⟨l, hl, hindex⟩ := List.mem_map.mp hmem
      exact absurd (hσ.index_lt hline l hl) (by rw [hindex]; exact lt_irrefl _)

/-- A query that the machine is about to make is about an object that was constructed. -/
def AsksInterval (b : Body) (s : Settings) (σ : Machine b.size) : Prop :=
  ∀ c x, b.code.get σ.pc = .call c → s.isQuery c = true → c.receiver = some x →
    ∃ o, σ.refs x.name = some o ∧ ∃ k ∈ σ.constructions, k.object = some o

end Body

/-- The terms that the checks at a site compare with zero. -/
inductive Resolver.Compares (r : Resolver) (site : Site) : Term String → Prop
  | order {i : Initializer} {t : Term String} (mem : i ∈ r.initializers) (here : i.site = site)
      (term : i.finish.term = .ok t) : Compares r site (.sub t (.const i.start))
  | afterStart {q : Query} {i : Initializer} {t : Term String} (mem : q ∈ r.queries)
    (here : q.site = site)
      (term : q.time.term = .ok t) (about : i ∈ r.resolve q.site q.receiver) :
      Compares r site (.sub t (.const i.start))
  | beforeEnd {q : Query} {i : Initializer} {t : Term String} (mem : q ∈ r.queries)
    (here : q.site = site)
      (term : q.time.term = .ok t) (about : i ∈ r.resolve q.site q.receiver) :
      Compares r site (.sub i.finishTerm t)

/-- A method whose run can be followed: straight-line code in which every query is about an
interval, and no value that is kept and no comparison overflows. -/
structure StraightMethod (s : Settings) (r : Resolver) (args : Nat → Int) (id : Nat)
    (m : Method) (b : Body) :
    Prop where
  straight : b.Straight
  asks : ∀ σ : Machine b.size, b.Reachable s args σ → b.AsksInterval s σ
  keeps : ∀ env, m.environment (r.initializersOf id) = .ok env → ∀ σ : Machine b.size,
    b.Reachable s args σ →
    KeepsFit env (r.initializersOf id) b σ
  compares : ∀ env, m.environment (r.initializersOf id) = .ok env → ∀ σ : Machine b.size,
    b.Reachable s args σ →
    ∀ t, r.Compares ⟨id, σ.pc⟩ t → env.Fits (σ.valuation (r.initializersOf id)) t

namespace VerifiedMethod

variable {s : Settings} {c : Class} {facts : PointsTo} {r : Resolver} {v : Verifier} {id fuel : Nat}
  {m : Method} {b : Body} {args : Nat → Int} {σ : Machine b.size} {env : Environment}
  {sol : Dataflow.Solution (Octagon env.size) b.size} {i : Initializer} {q : Query}

theorem context_of_environment (h : VerifiedMethod s c facts r v id m b)
    (henv : m.environment (r.initializersOf id) = .ok env) :
    Context s env m.integerLocals (r.initializersOf id) b := by
  obtain ⟨src, hsrc⟩ := h.accepted
  exact Analysis.context_of_resolve hsrc h.registers h.method h.body henv

/-- The analysis has taken every instruction that is not the last for one that can be executed. -/
theorem exists_effect (h : VerifiedMethod s c facts r v id m b) (hb : b.Straight)
    (henv : m.environment (r.initializersOf id) = .ok env)
    (hsol : ((problem env r id b).solve fuel).result = .ok sol) (hpc : σ.pc.val + 1 < b.size) :
    ∃ τ, Effect s args σ (b.code.get σ.pc) .fall τ := by
  have ctx := h.context_of_environment henv
  have hjump := hb.jumps σ.pc
  have hreturn := hb.returns σ.pc hpc
  have hparam := hb.params σ.pc
  obtain ⟨out, hout, -⟩ := (Dataflow.Problem.settled_of_solve Octagon.same_refl hsol σ.pc).produced
  change transfer env (r.initializerAt ⟨id, σ.pc⟩) (b.graph.isOnCycle σ.pc) (b.code.get σ.pc)
    _ = .ok out at hout
  generalize hcode : b.code.get σ.pc = instr at hout hjump hreturn hparam
  cases instr with
  | assign target value =>
    obtain ⟨d, hd, -⟩ := Except.bind_eq_ok.mp hout
    obtain ⟨x, rfl, ⟨hty, -⟩ | ⟨hty, ⟨p, rfl⟩, -⟩ | ⟨hty, t, ht, -⟩⟩ := assign_cases hd
    · exact ⟨_, .assignRef value hty⟩
    · simp [Code.Instr.takesInt, hty] at hparam
    · exact ⟨_, .assignInt hty ((Code.Expr.value_iff_of_term ht).mpr rfl)⟩
  | call call =>
    cases hbounds : s.bounds? call with
    | none => exact ⟨σ, .call hbounds⟩
    | some bounds =>
      obtain ⟨first, last⟩ := bounds
      obtain ⟨init, hinit, hsite, rfl, rfl, -⟩ := h.exists_initializer hcode hbounds
      obtain ⟨d, hd, -⟩ := Except.bind_eq_ok.mp hout
      rcases call_cases hd with ⟨hkind, -⟩ | ⟨hnone, -⟩ | ⟨j, hj, hd⟩
      · rw [(Settings.of_bounds? hbounds).1] at hkind
        cases hkind
      · exact absurd (by rw [hsite]) (index_ne_of_initializerAt hnone init hinit)
      · obtain ⟨hmem, hindex⟩ := mem_of_initializerAt hj
        obtain rfl := ctx.index_inj j hmem init hinit (by rw [hindex, hsite])
        obtain ⟨t, ht, -⟩ := Except.bind_eq_ok.mp hd
        exact ⟨_, .construct hbounds (.int _) ((Code.Expr.value_iff_of_term ht).mpr rfl)⟩
  | branch | goto => cases hjump
  | returnVoid | returnValue => cases hreturn
  | throwValue => cases hout

/-- What a query may be about is what it is about. -/
theorem exists_construction (h : VerifiedMethod s c facts r v id m b) (hline : b.graph.IsLine)
    (hσ : b.Reachable s args σ) {x : Local} {o : Nat} (ho : σ.refs x.name = some o)
    {k : Construction b.size} (hk : k ∈ σ.constructions) (hobject : k.object = some o)
    (hi : i ∈ r.resolve ⟨id, σ.pc⟩ x) : i ∈ r.initializersOf id ∧ k.By i σ := by
  obtain ⟨src, hsrc⟩ := h.accepted
  obtain ⟨hmem, hnode⟩ := h.registers.mem_resolve_iff.mp hi
  obtain ⟨j, hj, hby⟩ := h.exists_by hσ k hk
  obtain ⟨hjmem, hjmethod⟩ := List.mem_filter.mp hj
  -- the object comes from the allocation of `i`, and so does the one that `j` has constructed
  obtain ⟨states, hstates, hnodes, -⟩ := PointsTo.nodesAt_eq h.pointsTo h.method h.body
  rw [hnodes] at hnode
  have htyped := SourceClass.typed_of_resolve hsrc (List.mem_of_getElem? h.method) h.body
  obtain ⟨p, hp, hchain⟩ := Body.exists_copyChain_of_mayBe hstates htyped hnode
  obtain ⟨o', ho', ha⟩ := hchain.exists_object hline hσ
  obtain rfl : o' = o := Option.some.inj (ho'.symm.trans ho)
  obtain ⟨a, ha', hjnode⟩ := hby.object o' hobject
  obtain rfl : p = a := Option.some.inj (ha.symm.trans ha')
  rw [beq_iff_eq.mp hjmethod, ← hp] at hjnode
  have heq := h.registers.initializerOf_node hjmem
  rw [hjnode, h.registers.initializerOf_node hmem] at heq
  obtain rfl := Option.some.inj heq
  exact ⟨hj, hby⟩

/-- The ghost still has the end that the interval was constructed with. -/
theorem eval_finishTerm_valuation (ctx : Context s env m.integerLocals (r.initializersOf id) b)
    (hline : b.graph.IsLine) (hσ : b.Reachable s args σ) (hi : i ∈ r.initializersOf id)
    {k : Construction b.size} (hk : k ∈ σ.constructions) (hby : k.By i σ) :
    i.finishTerm.eval (σ.valuation (r.initializersOf id)) = k.finish := by
  have hghost : σ.valuation (r.initializersOf id) i.ghost = k.finish := by
    obtain ⟨l, hl, hindex, hvalue⟩ := Machine.valuation_ghost ctx hi ⟨k, hk, hby.index⟩
    have heq : l.index = k.index := Fin.ext (hindex.trans hby.index.symm)
    rw [hvalue, List.inj_on_of_nodup_map (hσ.nodup_index hline) hl hk heq]
  have hfinish := hby.eval_finishTerm (σ.valuation (r.initializersOf id))
  rwa [← hghost, Function.update_eq_self, hghost] at hfinish

/-- A run comes to each instruction. -/
theorem exists_reachable (h : VerifiedMethod s c facts r v id m b) (hb : b.Straight)
    (args : Nat → Int) (i : Fin b.size) :
    ∃ σ : Machine b.size, b.Reachable s args σ ∧ σ.pc = i := by
  obtain ⟨env, sol, henv, hsol, -⟩ := h.checks.exists_analysis h.analyzed h.method h.body
  exact Body.exists_reachable (fun σ _ hpc => h.exists_effect hb henv hsol hpc) i

/-- The state that a check at the machine's instruction sees: it knows what the run has computed
after it. -/
theorem tracks_checked (h : VerifiedMethod s c facts r v id m b)
    (hm : StraightMethod s r args id m b) (hσ : b.Reachable s args σ) {a : Analysis}
    {node : Dataflow.Node (Octagon a.env.size)} (ha : v.analysis? id = some a)
    (hnode : a.node? σ.pc = some node) :
    m.environment (r.initializersOf id) = .ok a.env ∧ b.graph.IsLine ∧
      ∀ e τ, Effect s args σ (b.code.get σ.pc) e τ → Tracks a.env (r.initializersOf id)
      node.fall τ (σ.pc + 1) := by
  obtain ⟨env, sol, henv, hsol, ha'⟩ := h.checks.exists_analysis h.analyzed h.method h.body
  obtain rfl := Option.some.inj (ha.symm.trans ha')
  obtain rfl : sol.nodes.get σ.pc = node := by
    simpa [Analysis.node?, Vector.get_eq_getElem] using hnode
  have ctx := h.context_of_environment henv
  have htracks := tracks_of_reachable hsol hm.straight ctx (hm.keeps env henv) hσ
  exact ⟨henv, isLine_of_solve hsol hm.straight, fun e τ effect =>
    tracks_step hsol hm.straight ctx htracks (hm.keeps env henv σ hσ) effect⟩

/-- An interval that fails its check is about to be constructed out of order. -/
theorem exists_constructs (h : VerifiedMethod s c facts r v id m b)
    (hm : StraightMethod s r args id m b) (hσ : b.Reachable s args σ) (hi : i ∈ r.initializers)
    (hsite : i.site = ⟨id, σ.pc⟩) (hfalse : (v.ordered i).result = .ok false) :
    ∃ start finish, b.Constructs s args σ start finish ∧ finish < start := by
  obtain ⟨a, node, t, ha, hnode, ht, hent⟩ := Verifier.ordered_eq_ok hfalse
  rw [hsite] at ha hnode
  obtain ⟨henv, -, hafter⟩ := h.tracks_checked hm hσ ha hnode
  have ctx := h.context_of_environment henv
  have hmem : i ∈ r.initializersOf id := List.mem_filter.mpr ⟨hi, by simp [hsite]⟩
  have hindex : i.site.index = σ.pc.val := by rw [hsite]
  obtain ⟨hlt, call, first, hcode, hbounds, hfirst⟩ := ctx.call i hmem
  have hpc : (⟨i.site.index, hlt⟩ : Fin b.size) = σ.pc := Fin.ext hindex
  rw [hpc] at hcode
  have hstart : first.Value args σ.ints i.start := by
    cases first with
    | int n =>
      obtain rfl := Option.some.inj hfirst
      exact .int _
    | _ => cases hfirst
  have hfinish : i.finish.Value args σ.ints (t.eval σ.ints) :=
    (Code.Expr.value_iff_of_term ht).mpr rfl
  have heffect : Effect s args σ (b.code.get σ.pc)
      .fall (σ.construct call.receiver i.start (t.eval σ.ints)) :=
    hcode ▸ .construct hbounds hstart hfinish
  refine ⟨_, _, ⟨call, first, i.finish, hcode, hbounds, hstart, hfinish⟩, ?_⟩
  have hoperands : ∀ y ∈ i.finish.locals, y ∈ (b.code.get σ.pc).operands := by
    rw [hcode]
    exact fun y => Code.Instr.mem_operands_call (by simp [(Settings.of_bounds? hbounds).2.2])
  -- the check sees the state after the call, where the locals are still the same
  have hvars : ∀ y ∈ t.vars ++ [], y ∈ b.Known (r.initializersOf id) (σ.pc + 1) := by
    intro y hy
    rw [List.append_nil] at hy
    exact Body.known_mono (Nat.le_succ _) (hm.straight.mem_known _ ht hoperands y hy)
  have hfits := (hm.compares _ henv σ hσ _ (.order hi hsite ht)).congr
    (w := (σ.construct call.receiver i.start (t.eval σ.ints)).valuation (r.initializersOf id))
      fun y hy => by
      rw [Term.vars, Term.vars, List.append_nil] at hy
      have hplain := ctx.plain_operand ht hoperands y hy
      rw [Machine.valuation_of_plain hplain, Machine.valuation_of_plain hplain]
      rfl
  have hiff := (hafter _ _ heffect).entailsGe_iff hvars hfits hent
  rw [ctx.eval_operand ht hoperands] at hiff
  exact not_le.mp fun hle => Bool.false_ne_true (hiff.mpr hle)

/-- A query that fails its check is about an interval of the run, and the state decides how its
time lies. -/
theorem exists_asks (h : VerifiedMethod s c facts r v id m b) (hm : StraightMethod s r args id m b)
    (hσ : b.Reachable s args σ) {call : Call} (hcode : b.code.get σ.pc = .call call)
    (hquery : s.isQuery call = true) (hreceiver : call.receiver = some q.receiver)
    (hargs : call.args = [q.time]) (hq : q ∈ r.queries) (hsite : q.site = ⟨id, σ.pc⟩)
    {demand : Verifier.Demand}
    (hfalse : (v.queriedAt demand q).result = .ok false) :
    ∃ (state : AbstractState) (time : Term String) (i : Initializer)
    (k : Construction b.size) (t : Int),
      b.Asks s args σ k t ∧ demand state time i = .ok false ∧
      (∀ holds, state.entailsGe time (.const i.start) = .ok holds → (holds = true ↔ k.start ≤ t)) ∧
      ∀ holds, state.entailsGe i.finishTerm time = .ok holds → (holds = true ↔ t ≤ k.finish) := by
  obtain ⟨a, node, t, ha, hnode, ht, -, hdemand⟩ := Verifier.queriedAt_eq_ok hfalse
  obtain ⟨i, hi, hdemand⟩ := hdemand rfl
  rw [hsite] at ha hnode
  obtain ⟨henv, hline, hafter⟩ := h.tracks_checked hm hσ ha hnode
  rw [h.checks.resolver] at hi
  have ctx := h.context_of_environment henv
  have hfits := hm.compares _ henv σ hσ
  obtain ⟨o, ho, k, hk, hobject⟩ := hm.asks σ hσ call _ hcode hquery hreceiver
  obtain ⟨hmem, hby⟩ := h.exists_construction hline hσ ho hk hobject (hsite ▸ hi)
  have hfinish := eval_finishTerm_valuation ctx hline hσ hmem hk hby
  have hoperands : ∀ y ∈ q.time.locals, y ∈ (b.code.get σ.pc).operands := by
    rw [hcode]
    exact fun y => Code.Instr.mem_operands_call (by simp [hargs])
  have hnone : s.bounds? call = none := by
    rw [Settings.bounds?, if_neg fun hc => Resolver.not_isQuery_of_isInitializer hc hquery]
  have hknows := hafter .fall σ (hcode ▸ .call hnone)
  have htime : ∀ y ∈ t.vars, y ∈ b.Known (r.initializersOf id) (σ.pc + 1) := fun y hy =>
    Body.known_mono (Nat.le_succ _) (hm.straight.mem_known _ ht hoperands y hy)
  have hend : ∀ y ∈ i.finishTerm.vars, y ∈ b.Known (r.initializersOf id) (σ.pc + 1) := by
    intro y hy
    have hlt : k.index < σ.pc := hσ.index_lt hline k hk
    exact .inr ⟨i, hmem, hby.index ▸ Nat.lt_succ_of_lt hlt, (i.eq_ghost_of_mem_vars hy).symm⟩
  have hasks : b.Asks s args σ k (t.eval σ.ints) :=
    ⟨hk, call, q.receiver, q.time, o, hcode, hquery, hreceiver, hargs,
      (Code.Expr.value_iff_of_term ht).mpr rfl, ho, hobject⟩
  refine ⟨_, t, i, k, _, hasks, hdemand, fun holds hent => ?_, fun holds hent => ?_⟩
  · have hiff := hknows.entailsGe_iff (by simpa [Term.vars] using htime)
      (hfits _ (.afterStart hq hsite ht hi)) hent
    rw [ctx.eval_operand ht hoperands] at hiff
    rw [hiff, hby.start]
    rfl
  · have hiff := hknows.entailsGe_iff (fun y hy => (List.mem_append.mp hy).elim (hend y) (htime y))
      (hfits _ (.beforeEnd hq hsite ht hi)) hent
    rw [hiff, hfinish, ctx.eval_operand ht hoperands]

end VerifiedMethod

/-- All methods of a class but constructors can be followed. -/
def Class.Straight (c : Class) (s : Settings) (r : Resolver) (args : Nat → Int) : Prop :=
  ∀ id m b, c.methods[id]? = some m → m.isConstructor = false → m.body = some b →
    StraightMethod s r args id m b

/-- In no run of a method that is no constructor, with these arguments, does an instruction violate
the property. -/
def Property.HoldsThroughout (p : Property) (c : Class) (s : Settings) (args : Nat → Int) : Prop :=
  ∀ m ∈ c.methods, m.isConstructor = false → ∀ b, m.body = some b → ∀ σ : Machine b.size,
    b.Reachable s args σ → p.HoldsAt b s args σ

namespace Verifier.Ready

variable {s : Settings} {c : Class} {r : Resolver} {v : Verifier} {args : Nat → Int} {p : Property}

theorem verifiedMethod (h : v.Ready s c r) {id : Nat} {m : Method} {b : Body}
    (hm : c.methods[id]? = some m) (hname : m.isConstructor = false) (hb : m.body = some b)
    (hlead : b.ParamsLead) :
    ∃ facts, VerifiedMethod s c facts r v id m b := by
  obtain ⟨facts, hfacts, hr⟩ := h.exists_facts
  exact ⟨facts, h.accepted, hfacts, Resolver.registers_of_ofOracle hr, h.checks, h.analyzed, hm,
    hname, hb, hlead⟩

/-- A run comes to every call. -/
theorem exists_machine (h : v.Ready s c r) (hc : c.Straight s r args) {site : Site} {call : Call}
    (hcall : (site, call) ∈ c.calls) :
    ∃ facts m b, VerifiedMethod s c facts r v site.method m b ∧
    StraightMethod s r args site.method m b ∧
      ∃ σ : Machine b.size, b.Reachable s args σ ∧ site = ⟨site.method, σ.pc⟩ ∧
      b.code.get σ.pc = .call call := by
  obtain ⟨m, b, hm, hb, hname, hcode⟩ := Class.mem_calls.mp hcall
  obtain ⟨hlt, hget⟩ := List.getElem?_eq_some_iff.mp hcode
  have hlt : site.index < b.size := by simpa using hlt
  have hstraight := hc site.method m b hm hname hb
  obtain ⟨facts, hmethod⟩ := h.verifiedMethod hm hname hb hstraight.straight.paramsLead
  obtain ⟨σ, hσ, hpc⟩ := hmethod.exists_reachable hstraight.straight args ⟨site.index, hlt⟩
  refine ⟨facts, m, b, hmethod, hstraight, σ, hσ, by rw [hpc], ?_⟩
  rw [hpc]
  simpa [Vector.get_eq_getElem] using hget

/-- A query that fails its check is asked in a run. -/
theorem exists_asks (h : v.Ready s c r) (hc : c.Straight s r args) {q : Query}
    (hq : q ∈ v.resolver.queries) {demand : AbstractState → Term String → Initializer →
      Except Error Bool}
    (hfalse : (v.queriedAt demand q).result = .ok false) :
    ∃ m ∈ c.methods, m.isConstructor = false ∧ ∃ b, m.body = some b ∧ ∃ σ : Machine b.size,
    b.Reachable s args σ ∧
      ∃ (state : AbstractState) (time : Term String) (i : Initializer)
      (k : Construction b.size) (t : Int),
        b.Asks s args σ k t ∧ demand state time i = .ok false ∧
        (∀ holds, state.entailsGe time (.const i.start) = .ok holds →
          (holds = true ↔ k.start ≤ t)) ∧
        ∀ holds, state.entailsGe i.finishTerm time = .ok holds → (holds = true ↔ t ≤ k.finish) := by
  obtain ⟨facts, -, hr⟩ := h.exists_facts
  rw [h.checks.resolver] at hq
  obtain ⟨call, hcall, hquery, hreceiver, hargs⟩ := Resolver.exists_call_of_query hr q hq
  obtain ⟨facts, m, b, hmethod, hstraight, σ, hσ, hsite, hcode⟩ := h.exists_machine hc hcall
  exact ⟨m, List.mem_of_getElem? hmethod.method, hmethod.ordinary, b, hmethod.body, σ, hσ,
    hmethod.exists_asks hstraight hσ hcode hquery hreceiver hargs hq hsite hfalse⟩

/-- A check that fails has found a violation. -/
theorem not_holdsThroughout (h : v.Ready s c r) (hc : c.Straight s r args) (hp : p ∈ v.analyzed)
    (hfalse : (v.decide p).result = .ok false) : ¬ p.HoldsThroughout c s args := by
  unfold decide at hfalse
  rw [if_pos hp] at hfalse
  intro hall
  cases p with
  | startEndOrder =>
    obtain ⟨facts, -, hr⟩ := h.exists_facts
    obtain ⟨i, hi, hfalse⟩ := Logged.allM_eq_false hfalse
    rw [h.checks.resolver] at hi
    obtain ⟨call, hcall, -⟩ := (Resolver.registers_of_ofOracle hr).initializer i hi
    obtain ⟨facts, m, b, hmethod, hstraight, σ, hσ, hsite, -⟩ := h.exists_machine hc hcall
    obtain ⟨start, finish, hmake, hlt⟩ := hmethod.exists_constructs hstraight hσ hi hsite hfalse
    have hle := hall m (List.mem_of_getElem? hmethod.method) hmethod.ordinary b hmethod.body σ hσ
      start finish hmake
    omega
  | afterStart =>
    obtain ⟨q, hq, hfalse⟩ := queriedAll_eq_false hfalse
    obtain ⟨m, hm, hname, b, hb, σ, hσ, state, time, i, k, t, hask, hdemand, hstart, -⟩ :=
      h.exists_asks hc hq hfalse
    exact Bool.false_ne_true ((hstart false hdemand).mpr (hall m hm hname b hb σ hσ k t hask))
  | beforeEnd =>
    obtain ⟨q, hq, hfalse⟩ := queriedAll_eq_false hfalse
    obtain ⟨m, hm, hname, b, hb, σ, hσ, state, time, i, k, t, hask, hdemand, -, hfinish⟩ :=
      h.exists_asks hc hq hfalse
    exact Bool.false_ne_true ((hfinish false hdemand).mpr (hall m hm hname b hb σ hσ k t hask))

theorem decide_iff (h : v.Ready s c r) (hc : c.Straight s r args)
    (hp : p ∈ v.analyzed) {holds : Bool} (hdec : (v.decide p).result = .ok holds) : holds = true ↔
    p.HoldsThroughout c s args := by
  cases holds with
  | false => exact iff_of_false Bool.false_ne_true (h.not_holdsThroughout hc hp hdec)
  | true =>
    refine iff_of_true rfl fun m hm hname b hb σ hσ => ?_
    obtain ⟨id, hid⟩ := List.mem_iff_getElem?.mp hm
    obtain ⟨facts, hmethod⟩ :=
      h.verifiedMethod hid hname hb (hc id m b hid hname hb).straight.paramsLead
    exact hmethod.holdsAt hσ hdec

end Verifier.Ready

/-- A verification that succeeds gives each property the verdict of its answer. -/
theorem Class.mem_verdicts {c : Class} {s : Settings} {r : Resolver}
    (hr : (Resolver.ofClass c s).result = .ok r) {ps : List Property} {report : Report}
    (hreport : (c.verify s ps).result = .ok report) {p : Property} (hp : p ∈ Property.asked ps) :
    ∃ holds, Verifier.answerBy c s r .inOrder p = .ok holds ∧
      ∀ verdict, (p, verdict) ∈ report.verdicts ↔ verdict = .ofBool holds := by
  rw [Class.result_verifyBy hr] at hreport
  obtain ⟨verdicts, hverdicts, rfl⟩ := Except.map_eq_ok.mp hreport
  obtain ⟨k, hk⟩ := List.mem_iff_getElem?.mp hp
  obtain ⟨entry, hentry, hanswer⟩ := Except.exists_getElem?_of_mapM hverdicts hk
  obtain ⟨holds, hholds, rfl⟩ := Except.map_eq_ok.mp hanswer
  refine ⟨holds, hholds, fun verdict => ⟨fun hmem => ?_, ?_⟩⟩
  · obtain ⟨q, -, hq⟩ := Except.mem_of_mapM hverdicts hmem
    obtain ⟨holds', hholds', heq⟩ := Except.map_eq_ok.mp hq
    obtain ⟨rfl, rfl⟩ := Prod.mk.inj heq
    rw [hholds] at hholds'
    rw [Except.ok.inj hholds']
  · rintro rfl
    exact List.mem_of_getElem? hentry

/-- Verdicts on straight-line code are exact. Take any accepted class whose methods, constructors
apart, are straight-line code in which int locals are assigned before they are used, queries are
about intervals that the method has constructed, and nothing overflows. If the verification gives a
report, a property that was asked for is reported safe exactly if no instruction violates it when
the methods are run, and otherwise there is an alarm. -/
theorem Class.verify_exact (src : SourceClass) (c : Class) (s : Settings) (r : Resolver)
    (ps : List Property) (report : Report) (p : Property) (args : Nat → Int)
    (hc : src.resolve = .ok c) (hr : (Resolver.ofClass c s).result = .ok r)
    (hreport : (c.verify s ps).result = .ok report) (hp : p ∈ Property.asked ps)
    (hstraight : c.Straight s r args) :
    ((p, .safe) ∈ report.verdicts ↔ p.HoldsThroughout c s args) ∧
    ((p, .alarm) ∈ report.verdicts ↔ ¬ p.HoldsThroughout c s args) := by
  obtain ⟨holds, hanswer, hverdicts⟩ := mem_verdicts hr hreport hp
  obtain ⟨as, has, hdec⟩ := Except.bind_eq_ok.mp hanswer
  have hready : Verifier.Ready s c r ⟨c, s, r, some as, [p]⟩ :=
    ⟨⟨src, hc⟩, hr, ⟨rfl, rfl, rfl, fun as' has' => Option.some.inj has' ▸ has⟩, rfl⟩
  rw [hverdicts, hverdicts, ← hready.decide_iff hstraight (List.mem_singleton_self p) hdec]
  cases holds <;> decide

/-- An interval up to the local, which is squared before the interval is asked about it under
another name. -/
def squareSource : SourceClass where
  name := "Square"
  methods := [{
    name := "run"
    params := []
    locals := ((FinMap.empty.insert "k" .int).insert "o" (.object "Interval")).insert "p"
      (.object "Interval")
    body := some [
      .assign (.var "k") (.int 4),
      .assign (.var "o") (.new "Interval"),
      .call ⟨.special, "Interval", "<init>", some "o", [.int 0, .var "k"]⟩,
      .assign (.var "k") (.arith .mul (.var "k") (.var "k")),
      .assign (.var "p") (.var "o"),
      .call ⟨.virtual, "Interval", "query", some "p", [.var "k"]⟩,
      .returnVoid] }]

def squareBody : Body where
  size := 7
  code :=
    let k : Local := ⟨"k", .int⟩
    let o : Local := ⟨"o", .object "Interval"⟩
    let p : Local := ⟨"p", .object "Interval"⟩
    #v[.assign (.var k) (.int 4),
      .assign (.var o) (.new "Interval"),
      .call ⟨.special, "Interval", "<init>", some o, [.int 0, .var k]⟩,
      .assign (.var k) (.arith .mul (.var k) (.var k)),
      .assign (.var p) (.var o),
      .call ⟨.virtual, "Interval", "query", some p, [.var k]⟩,
      .returnVoid]
  pos := Nat.zero_lt_succ _
  ends := Eq.refl false

def squareMethod : Method := ⟨"run", [], some squareBody⟩

def squareClass : Class := ⟨"Square", [squareMethod]⟩

def squareFacts : PointsTo :=
  let made : References := FinMap.empty.insert "o" (FinSet.single ⟨0, 1⟩)
  let copied := made.insert "p" (FinSet.single ⟨0, 1⟩)
  ⟨[#[FinMap.empty, FinMap.empty, made, made, made, copied, copied]]⟩

def squareResolver : Resolver :=
  (Resolver.start squareFacts.nodesAt).push ⟨0, 2⟩ ⟨0, 1⟩ 0 (.var ⟨"k", .int⟩)
    |>.ask ⟨⟨0, 5⟩, ⟨"p", .object "Interval"⟩, .var ⟨"k", .int⟩⟩

def squareEnvironment : Environment := .ofNodup ["k", "AbstractObject0.end"] (by decide)

theorem square_resolver : (Resolver.ofClass squareClass {}).result = .ok squareResolver := by
  have hfacts : (PointsTo.ofClass squareClass).result = .ok squareFacts := by cbv
  exact Logged.result_bind_ok.mpr ⟨squareFacts, hfacts, by cbv⟩

theorem square_straight : squareBody.Straight where
  jumps := by decide
  returns := by decide
  params := by decide
  assigned := by decide

theorem square_answer (p : Property) :
    Verifier.answerBy squareClass {} squareResolver .inOrder p = .ok (p != .beforeEnd) := by
  have hline : squareBody.graph.IsLine := square_straight.isLine fun i e => by fin_cases i <;> nofun
  have hrun : ∃ sol,
      ((problem squareEnvironment squareResolver 0 squareBody).solve stepLimit).result = .ok sol ∧
      (Verifier.decide
        ⟨squareClass, {}, squareResolver, some [some ⟨squareEnvironment, 7, sol⟩], [p]⟩ p).result =
        .ok (p != .beforeEnd) := by
    apply Logged.result_bind_ok.mp
    apply Logged.result_of_toOption
    have hhead : ∀ i, squareBody.graph.loopHeads.contains i = false := hline.isLoopHead_eq_false
    have hcycle : ∀ i, squareBody.graph.onCycle.contains i = false := hline.isOnCycle_eq_false
    simp only [Dataflow.Problem.solve, Dataflow.Problem.start, problem, hhead, hcycle]
    cases p <;> decide +kernel
  obtain ⟨sol, hsol, hdec⟩ := hrun
  exact Except.bind_eq_ok.mpr ⟨_, Verifier.analyzeMethods_singleton rfl rfl rfl hsol, hdec⟩

/-- The run, from what the int locals were before it. -/
def squareRun (ints : String → Int) : Fin 7 → Machine 7 :=
  let assigned := Function.update ints "k" 4
  let squared := Function.update assigned "k" 16
  let made : String → Option Nat := Function.update (fun _ => none) "o" (some 0)
  let copied := Function.update made "p" (some 0)
  ![⟨0, ints, fun _ => none, [], []⟩, ⟨1, assigned, fun _ => none, [], []⟩,
    ⟨2, assigned, made, [1], []⟩, ⟨3, assigned, made, [1], [⟨2, some 0, 0, 4⟩]⟩,
      ⟨4, squared, made, [1], [⟨2, some 0, 0, 4⟩]⟩,
    ⟨5, squared, copied, [1], [⟨2, some 0, 0, 4⟩]⟩, ⟨6, squared, copied, [1], [⟨2, some 0, 0, 4⟩]⟩]

theorem squareRun_pc (ints : String → Int) (i : Fin 7) : (squareRun ints i).pc = i := by
  fin_cases i <;> rfl

theorem squareRun_step {args : Nat → Int} {ints : String → Int} {i : Fin 7}
    {e : Edge} {τ : Machine 7} (h : squareBody.Step {} args (squareRun ints i) e τ) :
    τ = squareRun ints τ.pc := by
  obtain @⟨τ, j, effect, leads⟩ := h
  have hj : j.val = i.val + 1 := by rw [square_straight.next_of_leads leads, squareRun_pc]
  match i with
  | 0 =>
    obtain rfl : j = (1 : Fin 7) := Fin.ext hj
    rw [effect.eq_setInt rfl rfl]
    rfl
  | 1 =>
    obtain rfl : j = (2 : Fin 7) := Fin.ext hj
    rw [effect.eq_setRef rfl]
    rfl
  | 2 =>
    obtain rfl : j = (3 : Fin 7) := Fin.ext hj
    obtain ⟨_, ⟨⟩, rfl⟩ := effect.exists_construct rfl rfl
    rfl
  | 3 =>
    obtain rfl : j = (4 : Fin 7) := Fin.ext hj
    rw [effect.eq_setInt rfl rfl]
    rfl
  | 4 =>
    obtain rfl : j = (5 : Fin 7) := Fin.ext hj
    rw [effect.eq_setRef rfl]
    rfl
  | 5 =>
    obtain rfl : j = (6 : Fin 7) := Fin.ext hj
    rw [effect.eq_self rfl]
    rfl
  | 6 => exact absurd (hj ▸ j.isLt) (lt_irrefl 7)

theorem squareRun_of_reachable {args : Nat → Int} {σ : Machine squareBody.size}
    (h : squareBody.Reachable {} args σ) :
    ∃ ints i, σ = squareRun ints i := by
  induction h with
  | @start σ h =>
    obtain ⟨pc, ints, refs, allocations, constructions⟩ := σ
    obtain ⟨hpc, hrefs, rfl, rfl⟩ := h
    obtain rfl : pc = (0 : Fin 7) := Fin.ext hpc
    obtain rfl := funext hrefs
    exact ⟨ints, 0, rfl⟩
  | @step σ τ e _ hstep ih =>
    obtain ⟨ints, i, rfl⟩ := ih
    exact ⟨ints, τ.pc, squareRun_step hstep⟩

theorem square_keeps {i : Fin 7} {t : Term String}
    (h : Keeps squareBody (squareResolver.initializersOf 0) i t) :
    (i = 0 ∧ t = .const 4) ∨ (i = 2 ∧ t = .var "k") ∨ (i = 3 ∧ t = .mul (.var "k") (.var "k")) := by
  cases h with
  | assigned code ty term =>
    match i with
    | 0 =>
      obtain ⟨⟨⟩, rfl⟩ := Code.Instr.assign.inj code
      exact .inl ⟨rfl, (Except.ok.inj term).symm⟩
    | 3 =>
      obtain ⟨⟨⟩, rfl⟩ := Code.Instr.assign.inj code
      exact .inr (.inr ⟨rfl, (Except.ok.inj term).symm⟩)
    | 1 | 4 =>
      obtain ⟨⟨⟩, rfl⟩ := Code.Instr.assign.inj code
      cases ty
    | 2 | 5 | 6 => exact nomatch code
  | finish mem site term =>
    obtain rfl := List.mem_singleton.mp mem
    exact .inr (.inl ⟨Fin.ext site.symm, (Except.ok.inj term).symm⟩)

theorem square_compares {i : Fin 7} {t : Term String} (h : squareResolver.Compares ⟨0, i⟩ t) :
    (i = 2 ∧ t = .sub (.var "k") (.const 0)) ∨
    i = 5 ∧ (t = .sub (.var "k") (.const 0) ∨ t = .sub (.var "AbstractObject0.end")
      (.var "k")) := by
  have hmem : ∀ site x, ∀ j ∈ squareResolver.resolve site x, j ∈ squareResolver.initializers := by
    intro site x j hj
    obtain ⟨node, -, hnode⟩ := List.mem_filterMap.mp hj
    exact (squareResolver.nodes.mem_of_find? hnode).1
  cases h with
  | order mem here term =>
    obtain rfl := List.mem_singleton.mp mem
    obtain rfl := Except.ok.inj term
    exact .inl ⟨Fin.ext (Site.mk.inj here).2.symm, rfl⟩
  | afterStart mem here term about =>
    obtain rfl := List.mem_singleton.mp (hmem _ _ _ about)
    obtain rfl := List.mem_singleton.mp mem
    obtain rfl := Except.ok.inj term
    exact .inr ⟨Fin.ext (Site.mk.inj here).2.symm, .inl rfl⟩
  | beforeEnd mem here term about =>
    obtain rfl := List.mem_singleton.mp (hmem _ _ _ about)
    obtain rfl := List.mem_singleton.mp mem
    obtain rfl := Except.ok.inj term
    exact .inr ⟨Fin.ext (Site.mk.inj here).2.symm, .inr rfl⟩

theorem square_follows (args : Nat → Int) :
    StraightMethod {} squareResolver args 0 squareMethod squareBody where
  straight := square_straight
  asks := by
    intro σ hσ c x hcode hquery hx
    obtain ⟨ints, i, rfl⟩ := squareRun_of_reachable hσ
    match i with
    | 5 =>
      obtain rfl := Code.Instr.call.inj hcode
      obtain rfl := Option.some.inj hx
      exact ⟨0, rfl, _, List.mem_singleton_self _, rfl⟩
    | 2 =>
      obtain rfl := Code.Instr.call.inj hcode
      exact absurd hquery (by decide)
    | 0 | 1 | 3 | 4 | 6 => exact nomatch hcode
  keeps := by
    intro env henv σ hσ t ht
    obtain ⟨ints, i, rfl⟩ := squareRun_of_reachable hσ
    obtain rfl : squareEnvironment = env := Except.ok.inj henv
    rw [squareRun_pc] at ht
    -- wherever an int local is read to be kept, it is 4
    have hfits : FitsIn int64Limit (t.eval fun _ => 4) ∧ squareEnvironment.Fits (fun _ => 4) t := by
      rcases square_keeps ht with ⟨-, rfl⟩ | ⟨-, rfl⟩ | ⟨-, rfl⟩ <;> decide
    have hvalues : ∀ x ∈ t.vars, 4 = (squareRun ints i).valuation (squareResolver.initializersOf 0)
        x := by
      rcases square_keeps ht with ⟨rfl, rfl⟩ | ⟨rfl, rfl⟩ | ⟨rfl, rfl⟩ <;> simp [Term.vars] <;> rfl
    rw [Term.eval_congr hvalues] at hfits
    exact ⟨hfits.1, hfits.2.congr hvalues⟩
  compares := by
    intro env henv σ hσ t ht
    obtain ⟨ints, i, rfl⟩ := squareRun_of_reachable hσ
    obtain rfl : squareEnvironment = env := Except.ok.inj henv
    rw [squareRun_pc] at ht
    rcases square_compares ht with ⟨rfl, rfl⟩ | ⟨rfl, rfl | rfl⟩
    · have hfits : squareEnvironment.Fits (fun _ => 4) (.sub (.var "k") (.const 0)) := by decide
      exact hfits.congr (by simp [Term.vars]; rfl)
    · have hfits : squareEnvironment.Fits (fun _ => 16) (.sub (.var "k") (.const 0)) := by decide
      exact hfits.congr (by simp [Term.vars]; rfl)
    · have hfits : squareEnvironment.Fits (fun x => if x = "k" then 16 else 4)
          (.sub (.var "AbstractObject0.end") (.var "k")) := by decide
      exact hfits.congr (by simp [Term.vars]; exact ⟨rfl, rfl⟩)

theorem square_verify : (squareClass.verify {} []).result =
    .ok ⟨"Square", [(.startEndOrder, .safe), (.afterStart, .safe), (.beforeEnd, .alarm)]⟩ := by
  rw [Class.result_verifyBy square_resolver]
  simp only [square_answer]
  rfl

/-- The interval ends at 4, what the local was when it was constructed, and the query is at 16. -/
theorem Class.verify_exact_square :
    squareSource.resolve = .ok squareClass ∧
    (Resolver.ofClass squareClass {}).result = .ok squareResolver ∧
    squareClass.Straight {} squareResolver (fun _ => 0) ∧
    (squareClass.verify {} []).result =
      .ok ⟨"Square", [(.startEndOrder, .safe), (.afterStart, .safe), (.beforeEnd, .alarm)]⟩ ∧
    ∀ p : Property, p.HoldsThroughout squareClass {} (fun _ => 0) ↔ p ≠ .beforeEnd := by
  have hc : squareSource.resolve = .ok squareClass := by cbv
  have hstraight : squareClass.Straight {} squareResolver (fun _ => 0) := by
    intro id m b hm _ hb
    cases id with
    | zero =>
      obtain rfl := Option.some.inj hm
      obtain rfl := Option.some.inj hb
      exact square_follows _
    | succ id => cases hm
  refine ⟨hc, square_resolver, hstraight, square_verify, fun p => ?_⟩
  have hexact := verify_exact squareSource squareClass {} squareResolver [] _ p (fun _ => 0)
    hc square_resolver
    square_verify (by cases p <;> decide) hstraight
  rw [← hexact.1]
  cases p <;> decide

end Lifespan
