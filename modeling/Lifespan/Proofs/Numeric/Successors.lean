import Lifespan.Proofs.Machine
import Lifespan.Proofs.Numeric.Soundness

namespace Lifespan

open Dataflow

namespace Numeric

/-- The valuations of int locals and ghosts to which the instruction at `i` leads, by edge. A call
that constructs an interval gives its ghost the end of the interval; on a cycle the ghost may also
keep what it has. -/
inductive Successor (s : Settings) (inits : List Initializer) (b : Body)
    (args : Nat → Int) (i : Fin b.size) (v : String → Int) : Edge → (String → Int) → Prop
  | assignInt {x : Local} {e : Expr} {c : Int} (instr : b.code.get i = .assign (.var x) e)
      (ty : x.ty = .int) (value : e.Value args v c) :
      Successor s inits b args i v .fall (Function.update v x.name c)
  | assignOther {target : Place} {e : Expr} (instr : b.code.get i = .assign target e)
      (other : ∀ x, target = .var x → x.ty ≠ .int) : Successor s inits b args i v .fall v
  | pass {cond : Expr} {t : Fin b.size} (instr : b.code.get i = .branch cond t)
      (outcome : cond.Outcome args v false) : Successor s inits b args i v .fall v
  | take {cond : Expr} {t : Fin b.size} (instr : b.code.get i = .branch cond t)
      (outcome : cond.Outcome args v true) : Successor s inits b args i v .branch v
  | goto {t : Fin b.size} (instr : b.code.get i = .goto t) : Successor s inits b args i v .branch v
  | call {c : Call} (instr : b.code.get i = .call c)
      (untracked : s.bounds? c = none ∨ ∀ k ∈ inits, k.site.index ≠ i.val) :
      Successor s inits b args i v .fall v
  | construct {c : Call} {start finish : Expr} {k : Initializer} {e : Int}
    (instr : b.code.get i = .call c)
      (bounds : s.bounds? c = some (start, finish)) (mem : k ∈ inits) (site : k.site.index = i.val)
      (last : finish.Value args v e) : Successor s inits b args i v .fall
        (Function.update v k.ghost e)
  | keep {c : Call} {start finish : Expr} {k : Initializer} (instr : b.code.get i = .call c)
      (bounds : s.bounds? c = some (start, finish)) (mem : k ∈ inits) (site : k.site.index = i.val)
      (cycle : Relation.TransGen b.graph.Adj i i) : Successor s inits b args i v .fall v

variable {s : Settings} {env : Environment} {locals : List String} {r : Resolver}
    {id : Nat} {b : Body}
  {args : Nat → Int} {d d' : Octagon env.size} {v w : String → Int}

/-- A copy of a parameter passes the state on; any other assignment takes the point along. -/
theorem point_of_assign {x : Local} {e : Expr} {c : Int} (hd : d.Point (env.point v))
    (hty : x.ty = .int) (hvalue : e.Value args v c) (h : assign env (.var x) e d = .ok d') :
    (∃ p, e = .param p) ∧ d' = d ∨
      (∀ p, e ≠ .param p) ∧ d'.Point (env.point (Function.update v x.name c)) := by
  obtain ⟨y, hy, hcase⟩ := assign_cases h
  obtain rfl := Code.Place.var.inj hy
  rcases hcase with ⟨href, -⟩ | ⟨-, hparam, rfl⟩ | ⟨-, t, ht, hassign⟩
  · rw [hty] at href
    cases href
  · exact .inl ⟨hparam, rfl⟩
  · refine .inr ⟨?_, ?_⟩
    · rintro p rfl
      cases ht
    · rw [(Code.Expr.value_iff_of_term ht).mp hvalue]
      exact Environment.point_assign hd hassign

theorem eq_of_assign_other {target : Place} {e : Expr} (hother : ∀ x, target = .var x → x.ty ≠ .int)
    (h : assign env target e d = .ok d') : d' = d := by
  obtain ⟨x, rfl, ⟨-, rfl⟩ | ⟨-, -, rfl⟩ | ⟨hty, -⟩⟩ := assign_cases h
  · rfl
  · rfl
  · exact absurd hty (hother x rfl)

theorem point_of_construct {k : Initializer} {onCycle : Bool} {e : Int} (hd : d.Point (env.point v))
    (hvalue : k.finish.Value args v e) (h : construct env k onCycle d = .ok d') :
    d'.Point (env.point (Function.update v k.ghost e)) := by
  obtain ⟨t, ht, h⟩ := Except.bind_eq_ok.mp h
  obtain ⟨assigned, hassigned, h⟩ := Except.bind_eq_ok.mp h
  obtain rfl := Except.pure_eq_ok.mp h
  have hpoint := Environment.point_assign hd hassigned
  rw [← (Code.Expr.value_iff_of_term ht).mp hvalue] at hpoint
  cases onCycle with
  | false => exact hpoint
  | true => exact Octagon.Point.join (.inr hpoint)

/-- On a cycle the ghost may keep what it had. -/
theorem point_of_construct_again {k : Initializer} (hd : d.Point (env.point v))
    (h : construct env k true d = .ok d') : d'.Point (env.point v) := by
  obtain ⟨t, -, h⟩ := Except.bind_eq_ok.mp h
  obtain ⟨assigned, -, h⟩ := Except.bind_eq_ok.mp h
  obtain rfl := Except.pure_eq_ok.mp h
  exact Octagon.Point.join (.inl hd)

section Calls

variable (ctx : Context s env locals (r.initializersOf id) b) {i : Fin b.size} {c : Call}
  (hinstr : b.code.get i = .call c)

include ctx hinstr

/-- A call that constructs no interval, or one that is not kept track of, leaves the state. -/
theorem eq_of_untracked {onCycle : Bool}
    (huntracked : s.bounds? c = none ∨ ∀ k ∈ r.initializersOf id, k.site.index ≠ i.val)
    (h : call env (r.initializerAt ⟨id, i⟩) onCycle c d = .ok d') : d' = d := by
  rcases call_cases h with ⟨-, rfl⟩ | ⟨-, rfl⟩ | ⟨k, hk, -⟩
  · rfl
  · rfl
  · obtain ⟨hmem, hindex⟩ := mem_of_initializerAt hk
    obtain ⟨start, hbounds⟩ := ctx.bounds_of_call hmem hindex hinstr
    rcases huntracked with hnone | hne
    · rw [hnone] at hbounds
      cases hbounds
    · exact absurd hindex (hne k hmem)

/-- The call of an initializer constructs its interval. -/
theorem construct_of_call {onCycle : Bool} {start finish : Expr} {k : Initializer}
    (hbounds : s.bounds? c = some (start, finish)) (hmem : k ∈ r.initializersOf id)
    (hindex : k.site.index = i.val) (h : call env (r.initializerAt ⟨id, i⟩) onCycle c d = .ok d') :
    finish = k.finish ∧ construct env k onCycle d = .ok d' := by
  have hfinish : finish = k.finish := by
    obtain ⟨start', hbounds'⟩ := ctx.bounds_of_call hmem hindex hinstr
    rw [hbounds] at hbounds'
    exact (Prod.mk.inj (Option.some.inj hbounds')).2
  rcases call_cases h with ⟨hkind, -⟩ | ⟨hnone, -⟩ | ⟨k', hk', hconstruct⟩
  · rw [(Settings.of_bounds? hbounds).1] at hkind
    cases hkind
  · exact absurd hindex (index_ne_of_initializerAt hnone k hmem)
  · obtain ⟨hmem', hindex'⟩ := mem_of_initializerAt hk'
    obtain rfl := ctx.index_inj k hmem k' hmem' (hindex.trans hindex'.symm)
    exact ⟨hfinish, hconstruct⟩

end Calls

/-- Each successor of a point is a point of the state on its edge; only a copy of a parameter leaves
the state as it was. -/
theorem point_of_transfer {i : Fin b.size} (ctx : Context s env locals (r.initializersOf id) b)
    {out : Outflow (Octagon env.size)} {e : Edge}
    (hout : transfer env (r.initializerAt ⟨id, i⟩) (b.graph.isOnCycle i) (b.code.get i) d = .ok out)
    (hv : d.Point (env.point v)) (hw : Successor s (r.initializersOf id) b args i v e w) :
    ∃ d', out.on e = some d' ∧
      if (b.code.get i).takesInt then d' = d else d'.Point (env.point w) := by
  cases hw with
  | assignInt instr ty value =>
    rw [instr] at hout ⊢
    obtain ⟨d', hd', rfl⟩ := transfer_assign.mp hout
    refine ⟨d', rfl, ?_⟩
    rcases point_of_assign hv ty value hd' with ⟨⟨p, rfl⟩, rfl⟩ | ⟨hparam, hpoint⟩
    · rw [if_pos (Code.Instr.takesInt_iff.mpr ⟨_, p, rfl, ty⟩)]
    · rw [if_neg]
      · exact hpoint
      · intro htakes
        obtain ⟨_, p, heq, -⟩ := Code.Instr.takesInt_iff.mp htakes
        exact hparam p (Code.Instr.assign.inj heq).2
  | assignOther instr other =>
    rw [instr] at hout ⊢
    obtain ⟨d', hd', rfl⟩ := transfer_assign.mp hout
    obtain rfl := eq_of_assign_other other hd'
    refine ⟨d', rfl, ?_⟩
    split
    · rfl
    · exact hv
  | pass instr outcome =>
    rw [instr] at hout ⊢
    obtain ⟨br, passed, taken, hbr, hpassed, -, rfl⟩ := transfer_branch.mp hout
    exact ⟨passed, rfl, Environment.point_meet hv (outcome.holds hbr) hpassed⟩
  | take instr outcome =>
    rw [instr] at hout ⊢
    obtain ⟨br, passed, taken, hbr, -, htaken, rfl⟩ := transfer_branch.mp hout
    exact ⟨taken, rfl, Environment.point_meet hv (outcome.holds hbr) htaken⟩
  | goto instr =>
    rw [instr] at hout ⊢
    obtain rfl := Except.ok.inj hout
    exact ⟨d, rfl, hv⟩
  | call instr untracked =>
    rw [instr] at hout ⊢
    obtain ⟨d', hd', rfl⟩ := transfer_call.mp hout
    obtain rfl := eq_of_untracked ctx instr untracked hd'
    exact ⟨d', rfl, hv⟩
  | construct instr bounds mem site last =>
    rw [instr] at hout ⊢
    obtain ⟨d', hd', rfl⟩ := transfer_call.mp hout
    obtain ⟨rfl, hconstruct⟩ := construct_of_call ctx instr bounds mem site hd'
    exact ⟨d', rfl, point_of_construct hv last hconstruct⟩
  | keep instr bounds mem site cycle =>
    rw [instr, Graph.isOnCycle_iff_transGen.mpr cycle] at hout
    rw [instr]
    obtain ⟨d', hd', rfl⟩ := transfer_call.mp hout
    obtain ⟨-, hconstruct⟩ := construct_of_call ctx instr bounds mem site hd'
    exact ⟨d', rfl, point_of_construct_again hv hconstruct⟩

end Numeric

namespace Analysis

/-- Take any method of an accepted class, any octagon over its variables and any point of it. If an
instruction is analyzed without an overflow, each of its successors of the point is a point of the
state on the edge, unless the instruction copies a parameter into an int local. Then the state stays
as it is, and has the successor among its points only if it had it before. -/
theorem transfer_successors (src : SourceClass) (c : Class) (s : Settings)
    (oracle : Oracle) (r : Resolver) (m : Method) (id : Nat) (b : Body) (env : Environment)
    (hc : src.resolve = .ok c) (hr : (Resolver.ofOracle c s oracle).result = .ok r)
    (hm : c.methods[id]? = some m) (hb : m.body = some b)
    (henv : m.environment (r.initializersOf id) = .ok env) (i : Fin b.size) (d : Octagon env.size)
    (run : Traced (Outflow (Octagon env.size)))
    (hrun : Numeric.transferTraced env (r.initializerAt ⟨id, i⟩) (b.graph.isOnCycle i)
      (b.code.get i) d = .ok run)
    (hrange : run.InRange) (v : String → Int) (hv : d.Point (env.point v)) (args : Nat → Int)
    (e : Edge) (w : String → Int)
    (hw : Numeric.Successor s (r.initializersOf id) b args i v e w) :
    (Numeric.problem env r id b).transfer i d = .ok run.wrapped ∧
    run.checked? = some run.wrapped ∧
    ∃ d', run.wrapped.on e = some d' ∧
      if (b.code.get i).takesInt then d' = d else d'.Point (env.point w) := by
  have ctx := context_of_resolve hc (Resolver.registers_of_ofOracle hr) hm hb henv
  have hout : Numeric.transfer env (r.initializerAt ⟨id, i⟩) (b.graph.isOnCycle i)
      (b.code.get i) d = .ok run.wrapped :=
    (Numeric.map_value_transferTraced env d _ _ _).symm.trans (hrange.map_value hrun)
  exact ⟨hout, hrange.wrapped ▸ hrange.checked?, Numeric.point_of_transfer ctx hout hv hw⟩

theorem rounds_cycle : Relation.TransGen roundsBody.graph.Adj (2 : Fin 5) (2 : Fin 5) := by
  have adj (i j : Fin 5) (e : Edge)
      (hfall : e = .fall → (roundsBody.code.get i).fallsThrough = true)
      (h : roundsBody.Leads i e j) : roundsBody.graph.Adj i j :=
    Graph.adj_iff.mpr ⟨e, Body.mem_successors_of_leads hfall h⟩
  have h23 := adj 2 3 .fall (fun _ => rfl) rfl
  have h31 := adj 3 1 .branch (fun h => by cases h) rfl
  have h12 := adj 1 2 .fall (fun _ => rfl) rfl
  exact .tail (.tail (.single h23) h31) h12

/-- In the loop, where the local is known to be 3, the interval of this round ends at 3, or its
variable still has the 1 of an earlier one. -/
theorem transfer_successors_rounds :
    roundsSource.resolve = .ok roundsClass ∧
    (Resolver.ofOracle roundsClass {} roundsOracle).result = .ok roundsResolver ∧
    ∃ (d : Octagon roundsEnvironment.size) (v w : String → Int) (out : Outflow _) (d' : Octagon _),
      ¬ d.Point (roundsEnvironment.point fun _ => 1) ∧ d.Point (roundsEnvironment.point v) ∧ v ≠ w ∧
      (Numeric.problem roundsEnvironment roundsResolver 0 roundsBody).transfer (2 : Fin 5) d =
        .ok out ∧
      out.fall = some d' ∧ d'.Point (roundsEnvironment.point v) ∧
      d'.Point (roundsEnvironment.point w) := by
  have hc : roundsSource.resolve = .ok roundsClass := by cbv
  have hr : (Resolver.ofOracle roundsClass {} roundsOracle).result = .ok roundsResolver := by cbv
  let three : Octagon 2 := (Octagon.top 2).assign 0 (.const 3)
  let v : String → Int := Function.update (fun _ => 1) "n" 3
  let w : String → Int := Function.update v "AbstractObject0.end" 3
  have hne : v ≠ w := fun h => absurd (congrFun h "AbstractObject0.end") (by decide)
  have hassign : roundsEnvironment.assign (.top roundsEnvironment.size)
      "n" (.const 3) = .ok three := rfl
  have hv : three.Point (roundsEnvironment.point v) :=
    Environment.point_assign (Octagon.point_top (roundsEnvironment.point fun _ => 1)) hassign
  have hout : ¬ three.Point (roundsEnvironment.point fun _ => 1) := by
    intro hone
    have hthree : three.satisfies ⟨.sub (.var 0) (.const 3), .eq⟩ = true := by decide +kernel
    have hzero : (1 : Int) - 3 = 0 := hone.holds_of_satisfies hthree
    omega
  have hcycle : roundsBody.graph.isOnCycle (2 : Fin 5) = true :=
    Graph.isOnCycle_iff_transGen.mpr rounds_cycle
  obtain ⟨run, hrun, hrange⟩ : ∃ run, Numeric.transferTraced roundsEnvironment
      (roundsResolver.initializerAt ⟨0, (2 : Fin 5)⟩) (roundsBody.graph.isOnCycle (2 : Fin 5))
      (roundsBody.code.get (2 : Fin 5)) three = .ok run ∧ run.InRange := by
    refine ⟨_, rfl, ?_⟩
    rw [hcycle]
    decide +kernel
  have hsite : (⟨0, ⟨0, 2⟩, ⟨0, 1⟩, 0, .var ⟨"n", .int⟩⟩ : Initializer) ∈
      roundsResolver.initializersOf 0 :=
    List.mem_singleton_self _
  have hconstruct : Numeric.Successor {} (roundsResolver.initializersOf 0) roundsBody
      (fun _ => 0) (2 : Fin 5)
      v .fall w :=
    .construct rfl rfl hsite rfl (.var rfl)
  have hkeep : Numeric.Successor {} (roundsResolver.initializersOf 0) roundsBody
      (fun _ => 0) (2 : Fin 5)
      v .fall v :=
    .keep rfl rfl hsite rfl rounds_cycle
  obtain ⟨htransfer, -, d', hd', hw⟩ := transfer_successors roundsSource roundsClass {}
    roundsOracle roundsResolver roundsMethod 0 roundsBody roundsEnvironment hc hr rfl rfl rfl _ _
    run hrun hrange v hv _ _ w hconstruct
  obtain ⟨-, -, d'', hd'', hv'⟩ := transfer_successors roundsSource roundsClass {}
    roundsOracle roundsResolver roundsMethod 0 roundsBody roundsEnvironment hc hr rfl rfl rfl _ _
    run hrun hrange v hv _ _ v hkeep
  rw [hd'] at hd''
  obtain rfl := Option.some.inj hd''
  exact ⟨hc, hr, three, v, w, run.wrapped, d', hout, hv, hne, htransfer, hd', hv', hw⟩

/-- A parameter is copied into a local that already has a value. -/
def reloadSource : SourceClass where
  name := "Reload"
  methods := [{
    name := "run"
    params := [.int]
    locals := FinMap.empty.insert "k" .int
    body := some [.assign (.var "k") (.int 5), .assign (.var "k") (.param 0), .returnVoid] }]

def reloadBody : Body where
  size := 3
  code := #v[.assign (.var ⟨"k", .int⟩) (.int 5), .assign (.var ⟨"k", .int⟩)
    (.param ⟨0, .int⟩), .returnVoid]
  pos := Nat.zero_lt_succ _
  ends := Eq.refl false

def reloadMethod : Method := ⟨"run", [.int], some reloadBody⟩

def reloadClass : Class := ⟨"Reload", [reloadMethod]⟩

def reloadOracle : Oracle := fun _ _ => FinMap.empty

def reloadResolver : Resolver := .start reloadOracle

def reloadEnvironment : Environment := .ofNodup ["k"] (by decide)

/-- The copy passes on what was known of the local before, so the argument 0 is not among the points
of the state after it. -/
theorem exists_successor_lost :
    reloadSource.resolve = .ok reloadClass ∧
    (Resolver.ofOracle reloadClass {} reloadOracle).result = .ok reloadResolver ∧
    reloadMethod.environment (reloadResolver.initializersOf 0) = .ok reloadEnvironment ∧
    ∃ (d : Octagon reloadEnvironment.size) (v w : String → Int) (out : Outflow (Octagon _)),
      d.Point (reloadEnvironment.point v) ∧
      (Numeric.problem reloadEnvironment reloadResolver 0 reloadBody).transfer
      (1 : Fin 3) d = .ok out ∧
      Numeric.Successor {} (reloadResolver.initializersOf 0) reloadBody (fun _ => 0)
      (1 : Fin 3) v .fall w ∧
      ∀ d', out.fall = some d' → ¬ d'.Point (reloadEnvironment.point w) := by
  have hc : reloadSource.resolve = .ok reloadClass := by cbv
  have hr : (Resolver.ofOracle reloadClass {} reloadOracle).result = .ok reloadResolver := by cbv
  let five : Octagon 1 := (Octagon.top 1).assign 0 (.const 5)
  let v : String → Int := Function.update (fun _ => 0) "k" 5
  have htop : (Octagon.top reloadEnvironment.size).Point (reloadEnvironment.point fun _ => 0) :=
    Octagon.point_top _
  have hassign : reloadEnvironment.assign (.top reloadEnvironment.size) "k" (.const 5) = .ok five :=
    rfl
  have hv : five.Point (reloadEnvironment.point v) := Environment.point_assign htop hassign
  have hcopy : (Code.Expr.param ⟨0, .int⟩).Value (fun _ => 0) v 0 := .param rfl
  refine ⟨hc, hr, rfl, five, v, Function.update v "k" 0, ⟨some five, none⟩, hv, rfl,
    .assignInt (x := ⟨"k", .int⟩) rfl rfl hcopy, ?_⟩
  rintro d' hd' hlost
  obtain rfl := Option.some.inj hd'
  -- the state still says that the local is 5
  have hfive : five.satisfies ⟨.sub (.var 0) (.const 5), .eq⟩ = true := by decide +kernel
  have hzero : (0 : Int) - 5 = 0 := hlost.holds_of_satisfies hfive
  omega

end Analysis

end Lifespan
