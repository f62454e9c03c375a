import Lifespan.Proofs.Octagon.Pinned
import Lifespan.Proofs.Safety
import Lifespan.Proofs.StraightLine

namespace Lifespan

open Numeric

namespace Environment

variable {env : Environment} {d d' : Octagon env.size} {v w : String → Int}
    {K L : Set String} {x : String}
  {t l r : Term String}

/-- No operation overflows where the term is evaluated in the environment. -/
def Fits (env : Environment) (v : String → Int) (t : Term String) : Prop :=
  ∀ u, t.resolve env.index = .ok u → u.Fits (env.point v)

instance (env : Environment) (v : String → Int) (t : Term String) : Decidable (env.Fits v t) :=
  match h : t.resolve env.index with
  | .ok u => decidable_of_iff (u.Fits (env.point v)) (by simp [Fits, h])
  | .error _ => isTrue fun u hu => by rw [h] at hu; cases hu

theorem Fits.congr (h : env.Fits v t) (hvw : ∀ x ∈ t.vars, v x = w x) : env.Fits w t := by
  intro u hu
  refine (h u hu).congr fun i hi => ?_
  obtain ⟨x, hx, hindex⟩ := Term.exists_mem_vars_of_resolve hu hi
  simp only [point, get_of_index hindex]
  exact hvw x hx

/-- The state has the values of `v` for the variables of `K`, and knows nothing that is not so. -/
def Knows (env : Environment) (d : Octagon env.size) (v : String → Int) (K : Set String) : Prop :=
  ∃ S, d.Pins (env.point v) S ∧ ∀ x ∈ K, ∀ i, env.index x = .ok i → i ∈ S

theorem knows_top (env : Environment) (v : String → Int) : env.Knows (.top env.size) v ∅ :=
  ⟨∅, Octagon.pins_top _, fun _ hx => absurd hx (Set.notMem_empty _)⟩

theorem Knows.mono (h : env.Knows d v K) (hLK : L ⊆ K) : env.Knows d v L := by
  obtain ⟨S, hpins, hK⟩ := h
  exact ⟨S, hpins, fun x hx => hK x (hLK hx)⟩

theorem Knows.of_same (h : env.Knows d v K) (hsame : d'.same d = true) : env.Knows d' v K := by
  obtain ⟨S, hpins, hK⟩ := h
  exact ⟨S, hpins.of_same hsame, hK⟩

theorem Knows.empty_join (h : env.Knows d v K) : env.Knows (Octagon.empty.join d) v K := by
  obtain ⟨S, hpins, hK⟩ := h
  exact ⟨S, hpins.empty_join, hK⟩

theorem Knows.assign (h : env.Knows d v K) (ht : ∀ y ∈ t.vars, y ∈ K) (hfits : env.Fits v t)
    (hvalue : FitsIn int64Limit (t.eval v)) (hd : env.assign d x t = .ok d') :
    env.Knows d' (Function.update v x (t.eval v)) (insert x K) := by
  obtain ⟨S, hpins, hK⟩ := h
  obtain ⟨i, hi, hd⟩ := Except.bind_eq_ok.mp hd
  obtain ⟨u, hu, hd⟩ := Except.bind_eq_ok.mp hd
  obtain rfl := Except.pure_eq_ok.mp hd
  have hvars : ∀ j ∈ u.vars, j ∈ S := by
    intro j hj
    obtain ⟨y, hy, hindex⟩ := Term.exists_mem_vars_of_resolve hu hj
    exact hK y (ht y hy) j hindex
  rw [← eval_resolve hu v] at hvalue ⊢
  refine ⟨insert i S, ?_, fun y hy j hj => ?_⟩
  · rw [← point_update hi]
    exact hpins.assign hvars (hfits u hu) hvalue
  · rcases hy with rfl | hy
    · rw [hi] at hj
      exact Except.ok.inj hj ▸ Finset.mem_insert_self i S
    · exact Finset.mem_insert_of_mem (hK y hy j hj)

/-- Between known values the answer is the truth. -/
theorem Knows.entailsGe_iff (h : env.Knows d v K) (hvars : ∀ y ∈ l.vars ++ r.vars, y ∈ K)
    (hfits : env.Fits v (.sub l r)) {holds : Bool} (hd : env.entailsGe d l r = .ok holds) :
    holds = true ↔ r.eval v ≤ l.eval v := by
  obtain ⟨S, hpins, hK⟩ := h
  unfold entailsGe at hd
  split at hd
  case h_1 a b ha hb =>
    rw [Term.eval_of_constant? ha, Term.eval_of_constant? hb, ← Except.ok.inj hd]
    exact decide_eq_true_iff
  case h_2 =>
    obtain ⟨c, hc, hd⟩ := Except.bind_eq_ok.mp hd
    obtain ⟨u, hu, hc⟩ := Except.bind_eq_ok.mp hc
    obtain rfl := Except.pure_eq_ok.mp hc
    obtain rfl := Except.pure_eq_ok.mp hd
    have hknown : ∀ j ∈ u.vars, j ∈ S := by
      intro j hj
      obtain ⟨y, hy, hindex⟩ := Term.exists_mem_vars_of_resolve hu hj
      exact hK y (hvars y hy) j hindex
    rw [hpins.satisfies_iff hknown (hfits u hu)]
    change 0 ≤ u.eval (env.point v) ↔ _
    rw [eval_resolve hu]
    exact Int.sub_nonneg

end Environment

namespace Machine

variable {n : Nat} {s : Settings} {env : Environment} {locals : List String}
    {inits : List Initializer}
  {b : Body} {σ τ : Machine n} {x : String} {i : Initializer}

theorem valuation_congr (hints : τ.ints = σ.ints)
    (hconstructions : τ.constructions = σ.constructions) :
    τ.valuation inits = σ.valuation inits := by
  funext y
  simp only [valuation, hints, hconstructions]

theorem valuation_setInt (hx : isQualified x = false) (c : Int) :
    (σ.setInt x c).valuation inits = Function.update (σ.valuation inits) x c := by
  funext y
  by_cases hy : y = x
  · subst hy
    rw [Function.update_self, valuation_of_plain hx]
    exact Function.update_self y c σ.ints
  · have hints : (σ.setInt x c).ints y = σ.ints y := Function.update_of_ne hy _ _
    rw [Function.update_of_ne hy]
    simp only [valuation, hints]
    rfl

theorem valuation_construct (ctx : Context s env locals inits b) (hi : i ∈ inits)
    (hindex : i.site.index = σ.pc.val) (receiver : Option Local) (a e : Int) :
    (σ.construct receiver a e).valuation inits = Function.update (σ.valuation inits) i.ghost e := by
  funext y
  by_cases hy : y = i.ghost
  · subst hy
    rw [Function.update_self, valuation, find?_key_eq_some ctx.nodup.2.1 hi]
    simp [construct, hindex]
  · rw [Function.update_of_ne hy]
    unfold valuation
    cases hfind : inits.find? fun j => j.ghost == y with
    | none => rfl
    | some j =>
      -- another ghost belongs to another instruction
      have hj : j ∈ inits := List.mem_of_find?_eq_some hfind
      have hghost : j.ghost = y := by simpa using List.find?_some hfind
      have hne : σ.pc.val ≠ j.site.index := by
        intro heq
        rw [ctx.index_inj j hj i hi (heq.symm.trans hindex.symm)] at hghost
        exact hy hghost.symm
      simp [construct, hne]

theorem valuation_construct_untracked (hnone : ∀ i ∈ inits, i.site.index ≠ σ.pc.val)
    (receiver : Option Local) (a e : Int) :
    (σ.construct receiver a e).valuation inits = σ.valuation inits := by
  funext y
  unfold valuation
  cases hfind : inits.find? fun j => j.ghost == y with
  | none => rfl
  | some j =>
    have hne : σ.pc.val ≠ j.site.index := (hnone j (List.mem_of_find?_eq_some hfind)).symm
    simp [construct, hne]

end Machine

namespace Body

variable {b : Body} {inits : List Initializer} {i : Fin b.size} {x : String}

/-- The int locals assigned and the ghosts of the intervals constructed before the instruction
at `k`. -/
def Known (b : Body) (inits : List Initializer) (k : Nat) : Set String :=
  {x | (∃ j : Fin b.size, j.val < k ∧ (b.code.get j).setsInt? = some x) ∨
    ∃ i ∈ inits, i.site.index < k ∧ i.ghost = x}

theorem known_mono {k l : Nat} (h : k ≤ l) : b.Known inits k ⊆ b.Known inits l := by
  rintro x (⟨j, hj, hx⟩ | ⟨i, hi, hindex, hx⟩)
  · exact .inl ⟨j, by omega, hx⟩
  · exact .inr ⟨i, hi, by omega, hx⟩

theorem known_succ (hx : x ∈ b.Known inits (i.val + 1)) : x ∈ b.Known inits i.val ∨
    (b.code.get i).setsInt? = some x ∨ ∃ init ∈ inits, init.site.index = i.val ∧
    init.ghost = x := by
  rcases hx with ⟨j, hj, hx⟩ | ⟨init, hinit, hindex, hx⟩
  · by_cases hji : j.val < i.val
    · exact .inl (.inl ⟨j, hji, hx⟩)
    · have heq : j = i := Fin.ext (by omega)
      exact .inr (.inl (heq ▸ hx))
  · by_cases hlt : init.site.index < i.val
    · exact .inl (.inr ⟨init, hinit, hlt, hx⟩)
    · exact .inr (.inr ⟨init, hinit, by omega, hx⟩)

/-- What an expression of the instruction mentions was assigned before. -/
theorem Straight.mem_known (h : b.Straight) (inits : List Initializer) {e : Expr} {t : Term String}
    (ht : e.term = .ok t) (he : ∀ y ∈ e.locals, y ∈ (b.code.get i).operands) :
    ∀ y ∈ t.vars, y ∈ b.Known inits i.val := by
  intro y hy
  obtain ⟨z, hz, rfl, hty⟩ := Code.Expr.mem_locals_of_term ht hy
  obtain ⟨j, hj, hset⟩ := h.assigned i z (he z hz) hty
  exact .inl ⟨j, hj, hset⟩

end Body

namespace Numeric

/-- The terms whose values are kept at an instruction: for an int local, or as the end of
an interval. -/
inductive Keeps (b : Body) (inits : List Initializer) (i : Fin b.size) : Term String → Prop
  | assigned {x : Local} {e : Expr} {t : Term String} (code : b.code.get i = .assign (.var x) e)
      (ty : x.ty = .int) (term : e.term = .ok t) : Keeps b inits i t
  | finish {init : Initializer} {t : Term String} (mem : init ∈ inits)
    (site : init.site.index = i.val)
      (term : init.finish.term = .ok t) : Keeps b inits i t

/-- At this machine the terms that are kept are worth signed 64-bit integers, and evaluating them
overflows nowhere. -/
def KeepsFit (env : Environment) (inits : List Initializer) (b : Body) (σ : Machine b.size) :
    Prop :=
  ∀ t, Keeps b inits σ.pc t → FitsIn int64Limit (t.eval (σ.valuation inits)) ∧
    env.Fits (σ.valuation inits) t

variable {s : Settings} {env : Environment} {locals : List String}
    {inits : List Initializer} {b : Body}
  {args : Nat → Int} {d d' : Octagon env.size} {σ τ : Machine b.size} {e : Edge}

/-- The state knows all that the run has computed so far. -/
def Tracks (env : Environment) (inits : List Initializer) (d : Octagon env.size)
    (σ : Machine b.size) (k : Nat) :
    Prop :=
  env.Knows d (σ.valuation inits) (b.Known inits k)

/-- An instruction that neither assigns an int local nor constructs an interval changes nothing. -/
theorem Tracks.unchanged (hd : Tracks env inits d σ σ.pc) (hset : (b.code.get σ.pc).setsInt? = none)
    (hnone : ∀ i ∈ inits, i.site.index ≠ σ.pc.val) (hτ : τ.valuation inits = σ.valuation inits) :
    Tracks env inits d τ (σ.pc + 1) := by
  unfold Tracks at hd ⊢
  rw [hτ]
  refine hd.mono fun x hx => ?_
  rcases Body.known_succ hx with hx | hx | ⟨i, hi, hindex, -⟩
  · exact hx
  · rw [hset] at hx
    cases hx
  · exact absurd hindex (hnone i hi)

section Operand

variable (ctx : Context s env locals inits b) {i : Fin b.size} {value : Expr} {t : Term String}
  (ht : value.term = .ok t) (hvalue : ∀ y ∈ value.locals, y ∈ (b.code.get i).operands)

include ctx ht hvalue

theorem Context.plain_operand : ∀ y ∈ t.vars, isQualified y = false :=
  Code.Expr.plain_of_term ht fun y hy =>
    ctx.plain i y ((b.code.get i).operands_subset (hvalue y hy))

/-- A term of the code has the value that it has at the int locals. -/
theorem Context.eval_operand {n : Nat} (σ : Machine n) :
    t.eval (σ.valuation inits) = t.eval σ.ints :=
  Term.eval_congr fun y hy => Machine.valuation_of_plain (ctx.plain_operand ht hvalue y hy)

end Operand

theorem Context.index_ne (ctx : Context s env locals inits b) {i : Fin b.size}
    (h : ∀ c bounds, b.code.get i = .call c → s.bounds? c ≠ some bounds) :
    ∀ init ∈ inits, init.site.index ≠ i.val := by
  intro init hinit hindex
  obtain ⟨hlt, c, start, hcode, hbounds, -⟩ := ctx.call init hinit
  have hi : (⟨init.site.index, hlt⟩ : Fin b.size) = i := Fin.ext hindex
  exact h c _ (hi ▸ hcode) hbounds

theorem Tracks.assign (hd : Tracks env inits d σ σ.pc) (ctx : Context s env locals inits b)
    (hb : b.Straight) (hfits : KeepsFit env inits b σ) {target : Place} {value : Expr}
    (hcode : b.code.get σ.pc = .assign target value)
    (effect : Effect s args σ (.assign target value) e τ)
    (h : Numeric.assign env target value d = .ok d') : Tracks env inits d' τ (σ.pc + 1) := by
  have hnone : ∀ i ∈ inits, i.site.index ≠ σ.pc.val := ctx.index_ne (by simp [hcode])
  obtain ⟨x, rfl, ⟨hty, rfl⟩ | ⟨hty, ⟨p, rfl⟩, rfl⟩ | ⟨hty, t, ht, h⟩⟩ := assign_cases h
  · have hset : (b.code.get σ.pc).setsInt? = none := by
      rw [hcode, Code.Instr.setsInt?, if_neg fun hint => by simp [hint, Ty.isReference] at hty]
    obtain rfl := effect.eq_setRef hty
    refine hd.unchanged hset hnone (Machine.valuation_congr ?_ ?_) <;> cases value <;> rfl
  · have hno := hb.params σ.pc
    simp [hcode, Code.Instr.takesInt, hty] at hno
  · have hplain := ctx.plain σ.pc
    rw [hcode] at hplain
    have hx : isQualified x.name = false := hplain x List.mem_cons_self
    have hoperands : ∀ y ∈ value.locals, y ∈ (b.code.get σ.pc).operands := by
      simp [hcode, Code.Instr.operands]
    have heval := ctx.eval_operand ht hoperands σ
    obtain ⟨hvalue, hterm⟩ := hfits t (.assigned hcode hty ht)
    have hknows := Environment.Knows.assign hd (hb.mem_known inits ht hoperands) hterm hvalue h
    obtain rfl := effect.eq_setInt hty ht
    unfold Tracks
    rw [Machine.valuation_setInt hx, ← heval]
    refine hknows.mono fun y hy => ?_
    rcases Body.known_succ hy with hy | hy | ⟨i, hi, hindex, -⟩
    · exact .inr hy
    · rw [hcode, Code.Instr.setsInt?, if_pos hty] at hy
      exact .inl (Option.some.inj hy).symm
    · exact absurd hindex (hnone i hi)

theorem Tracks.call (hd : Tracks env inits d σ σ.pc) (ctx : Context s env locals inits b)
    (hb : b.Straight) (hfits : KeepsFit env inits b σ) {c : Call} {init : Option Initializer}
    (hcode : b.code.get σ.pc = .call c) (hsome : ∀ i, init = some i → i ∈ inits ∧
      i.site.index = σ.pc.val)
    (hnone : init = none → ∀ i ∈ inits, i.site.index ≠ σ.pc.val)
    (effect : Effect s args σ (.call c) e τ) (h : Numeric.call env init false c d = .ok d') :
    Tracks env inits d' τ (σ.pc + 1) := by
  have hset : (b.code.get σ.pc).setsInt? = none := by
    rw [hcode]
    rfl
  rcases call_cases h with ⟨hkind, rfl⟩ | ⟨hinit, rfl⟩ | ⟨i, hinit, h⟩
  · have hbounds : ∀ bounds, s.bounds? c ≠ some bounds := by
      intro bounds hbounds
      rw [(Settings.of_bounds? hbounds).1] at hkind
      cases hkind
    obtain rfl := effect.eq_self (Option.eq_none_iff_forall_ne_some.mpr hbounds)
    refine hd.unchanged hset (ctx.index_ne fun c' bounds hcode' => ?_) rfl
    obtain rfl := Code.Instr.call.inj (hcode.symm.trans hcode')
    exact hbounds bounds
  · have huntracked := hnone hinit
    cases effect with
    | call _ => exact hd.unchanged hset huntracked rfl
    | construct _ _ _ =>
      exact hd.unchanged hset huntracked (Machine.valuation_construct_untracked huntracked _ _ _)
  · obtain ⟨hi, hindex⟩ := hsome i hinit
    obtain ⟨start, hbounds⟩ := ctx.bounds_of_call hi hindex hcode
    obtain ⟨t, ht, h⟩ := Except.bind_eq_ok.mp h
    obtain ⟨assigned, hassigned, h⟩ := Except.bind_eq_ok.mp h
    obtain rfl := Except.pure_eq_ok.mp h
    have hoperands : ∀ y ∈ i.finish.locals, y ∈ (b.code.get σ.pc).operands := by
      rw [hcode]
      exact fun y => Code.Instr.mem_operands_call (by simp [(Settings.of_bounds? hbounds).2.2])
    have heval := ctx.eval_operand ht hoperands σ
    obtain ⟨hvalue, hterm⟩ := hfits t (.finish hi hindex ht)
    have hknows :=
      Environment.Knows.assign hd (hb.mem_known inits ht hoperands) hterm hvalue hassigned
    obtain ⟨a, -, rfl⟩ := effect.exists_construct hbounds ht
    unfold Tracks
    rw [Machine.valuation_construct ctx hi hindex, ← heval]
    refine hknows.mono fun y hy => ?_
    rcases Body.known_succ hy with hy | hy | ⟨j, hj, hjndex, rfl⟩
    · exact .inr hy
    · rw [hset] at hy
      cases hy
    · rw [ctx.index_inj j hj i hi (hjndex.trans hindex.symm)]
      exact .inl rfl

/-- What an instruction produces knows what the run has computed after it. -/
theorem Tracks.transfer (hd : Tracks env inits d σ σ.pc) (ctx : Context s env locals inits b)
    (hb : b.Straight) (hfits : KeepsFit env inits b σ) {init : Option Initializer}
    {out : Dataflow.Outflow (Octagon env.size)} (hsome : ∀ i, init = some i → i ∈ inits ∧
      i.site.index = σ.pc.val)
    (hnone : init = none → ∀ i ∈ inits, i.site.index ≠ σ.pc.val)
    (effect : Effect s args σ (b.code.get σ.pc) e τ)
    (h : Numeric.transfer env init false (b.code.get σ.pc) d = .ok out) :
    ∃ d', out.fall = some d' ∧ Tracks env inits d' τ (σ.pc + 1) := by
  have hjump := hb.jumps σ.pc
  generalize hcode : b.code.get σ.pc = instr at effect h hjump
  cases instr with
  | assign target value =>
    obtain ⟨d', hd', rfl⟩ := transfer_assign.mp h
    exact ⟨d', rfl, hd.assign ctx hb hfits hcode effect hd'⟩
  | call c =>
    obtain ⟨d', hd', rfl⟩ := transfer_call.mp h
    exact ⟨d', rfl, hd.call ctx hb hfits hcode hsome hnone effect hd'⟩
  | branch cond target => cases hjump
  | goto target => cases hjump
  | _ => cases effect

section Run

variable {r : Resolver} {id fuel : Nat} {sol : Dataflow.Solution (Octagon env.size) b.size}
  (hsol : ((problem env r id b).solve fuel).result = .ok sol) (hb : b.Straight)

include hsol hb

/-- Code with a throw is not analyzed. -/
theorem isLine_of_solve : b.graph.IsLine := by
  apply hb.isLine
  intro i e hcode
  obtain ⟨out, hout, -⟩ := (Dataflow.Problem.settled_of_solve Octagon.same_refl hsol i).produced
  change transfer env _ _ (b.code.get i) _ = .ok out at hout
  rw [hcode] at hout
  cases hout

variable (ctx : Context s env locals (r.initializersOf id) b)

include ctx

/-- The edge on which the run leaves an instruction has what it has computed. -/
theorem tracks_step (hd : Tracks env (r.initializersOf id) (sol.nodes.get σ.pc).incoming σ σ.pc)
    (hfits : KeepsFit env (r.initializersOf id) b σ)
    (effect : Effect s args σ (b.code.get σ.pc) e τ) :
    Tracks env (r.initializersOf id) (sol.nodes.get σ.pc).fall τ (σ.pc + 1) := by
  obtain ⟨out, hout, hsame⟩ :=
    (Dataflow.Problem.settled_of_solve Octagon.same_refl hsol σ.pc).produced
  change transfer env (r.initializerAt ⟨id, σ.pc⟩) (b.graph.isOnCycle σ.pc) (b.code.get σ.pc)
    _ = .ok out at hout
  rw [(isLine_of_solve hsol hb).isOnCycle_eq_false] at hout
  obtain ⟨d, hfall, htracks⟩ := hd.transfer ctx hb hfits (fun i hi => mem_of_initializerAt hi)
    index_ne_of_initializerAt effect hout
  exact htracks.of_same (hsame .fall d hfall)

/-- The state before an instruction knows what the run has computed when it comes there. -/
theorem tracks_of_reachable
    (hfits : ∀ σ : Machine b.size, b.Reachable s args σ → KeepsFit env (r.initializersOf id) b σ)
    (hσ : b.Reachable s args σ) :
    Tracks env (r.initializersOf id) (sol.nodes.get σ.pc).incoming σ σ.pc := by
  have hline : (problem env r id b).graph.IsLine := isLine_of_solve hsol hb
  induction hσ with
  | start h =>
    unfold Tracks
    rw [Dataflow.Problem.incoming_first hline hsol h.pc]
    refine (Environment.knows_top env _).mono ?_
    rw [h.pc]
    rintro x (⟨j, hj, -⟩ | ⟨i, -, hi, -⟩)
    · exact absurd hj (Nat.not_lt_zero _)
    · exact absurd hi (Nat.not_lt_zero _)
  | @step σ τ e hσ h ih =>
    obtain @⟨τ, j, effect, leads⟩ := h
    have htracks := tracks_step hsol hb ctx ih (hfits σ hσ) effect
    have hnext : j.val = σ.pc.val + 1 := hb.next_of_leads leads
    change env.Knows (sol.nodes.get j).incoming (τ.valuation _) (b.Known _ j.val)
    rw [Dataflow.Problem.incoming_next hline hsol hnext, hnext]
    exact htracks.empty_join

end Run

end Numeric

end Lifespan
