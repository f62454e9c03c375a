import Lifespan.Proofs.Condition
import Lifespan.Proofs.Numeric.Transfer
import Lifespan.Proofs.Resolver

namespace Lifespan

open Dataflow

/-- Ghost variables are told from locals by their names. -/
theorem Initializer.isQualified_ghost (i : Initializer) : isQualified i.ghost = true := by
  simp [isQualified, ghost, qualified]

theorem Initializer.ne_ghost {x : String} (hx : isQualified x = false) (i : Initializer) :
    x ≠ i.ghost := by
  rintro rfl
  rw [i.isQualified_ghost] at hx
  cases hx

variable {n : Nat}

/-- The valuation has the values of the int locals, and under each ghost variable the end of an
interval constructed there, if there is one. -/
structure Machine.Extended (σ : Machine n) (locals : List String) (inits : List Initializer)
    (v : String → Int) : Prop where
  ints : ∀ x ∈ locals, v x = σ.ints x
  ends : ∀ i ∈ inits, (∃ k ∈ σ.constructions, k.index.val = i.site.index) →
    ∃ k ∈ σ.constructions, k.index.val = i.site.index ∧ v i.ghost = k.finish

namespace Numeric

/-- What the analysis of a method rests on: its variables are int locals and ghosts, its code
mentions no ghost, and its initializers are calls of their own. -/
structure Context (s : Settings) (env : Environment) (locals : List String)
    (inits : List Initializer) (b : Body) : Prop where
  vars : env.vars = locals ++ inits.map Initializer.ghost
  plain : b.Plain
  index_inj : ∀ i ∈ inits, ∀ j ∈ inits, i.site.index = j.site.index → i = j
  call : ∀ i ∈ inits, ∃ (h : i.site.index < b.size) (c : Call) (start : Expr),
    b.code.get ⟨i.site.index, h⟩ = .call c ∧ s.bounds? c = some (start, i.finish) ∧
    start.int? = some i.start

/-- All that may be true of the machine is a point of the state. -/
def Covers {env : Environment} (locals : List String) (inits : List Initializer)
    (d : Octagon env.size) (σ : Machine n) : Prop :=
  ∀ v, σ.Extended locals inits v → d.Point (env.point v)

variable {s : Settings} {env : Environment} {locals : List String}
    {inits : List Initializer} {b : Body}
  {args : Nat → Int} {d d' : Octagon env.size} {σ τ : Machine n} {v : String → Int}

namespace Context

theorem nodup (h : Context s env locals inits b) :
    locals.Nodup ∧ (inits.map Initializer.ghost).Nodup ∧
      ∀ x ∈ locals, ∀ i ∈ inits, x ≠ i.ghost := by
  have hn := env.nodup
  rw [h.vars, List.nodup_append] at hn
  exact ⟨hn.1, hn.2.1, fun x hx i hi => hn.2.2 x hx _ (List.mem_map_of_mem hi)⟩

theorem mem_locals (h : Context s env locals inits b) {x : String} (hx : x ∈ env.vars)
    (hplain : isQualified x = false) : x ∈ locals := by
  rw [h.vars] at hx
  rcases List.mem_append.mp hx with hx | hx
  · exact hx
  · obtain ⟨i, -, rfl⟩ := List.mem_map.mp hx
    exact absurd rfl (i.ne_ghost hplain)

theorem ghost_inj (h : Context s env locals inits b) {i j : Initializer}
    (hi : i ∈ inits) (hj : j ∈ inits) (heq : i.ghost = j.ghost) : i = j :=
  List.inj_on_of_nodup_map h.nodup.2.1 hi hj heq

/-- The call of an initializer gives its end. -/
theorem bounds_of_call (h : Context s env locals inits b) {i : Initializer} (hi : i ∈ inits)
    {pc : Fin b.size} (hindex : i.site.index = pc.val) {c : Call} (hc : b.code.get pc = .call c) :
    ∃ start, s.bounds? c = some (start, i.finish) := by
  obtain ⟨hlt, c', start, hc', hb, -⟩ := h.call i hi
  have hpc : (⟨i.site.index, hlt⟩ : Fin b.size) = pc := Fin.ext hindex
  rw [hpc, hc] at hc'
  cases hc'
  exact ⟨start, hb⟩

/-- Terms over the locals have one value, whatever the ghosts. -/
theorem eval_eq (h : Context s env locals inits b) (hv : σ.Extended locals inits v)
    {t : Term String} (hvars : ∀ x ∈ t.vars, x ∈ env.vars)
    (hplain : ∀ x ∈ t.vars, isQualified x = false) :
    t.eval v = t.eval σ.ints :=
  Term.eval_congr fun x hx => hv.ints x (h.mem_locals (hvars x hx) (hplain x hx))

end Context

theorem Covers.congr (h : Covers locals inits d σ) (hi : τ.ints = σ.ints)
    (hc : τ.constructions = σ.constructions) : Covers locals inits d τ := by
  intro v hv
  apply h v
  exact ⟨hi ▸ hv.ints, hc ▸ hv.ends⟩

theorem Covers.meet (hd : Covers locals inits d σ) (ctx : Context s env locals inits b)
    {c : Constraint String} (hc : c.Holds σ.ints)
    (hplain : ∀ x ∈ c.term.vars, isQualified x = false) (h : env.meet d c = .ok d') :
    Covers locals inits d' σ := by
  intro v hv
  refine Environment.point_meet (hd v hv) ?_ h
  unfold Constraint.Holds
  rw [ctx.eval_eq hv (Environment.mem_of_meet h) hplain]
  exact hc

theorem Covers.assign (hd : Covers locals inits d σ)
    (ctx : Context s env locals inits b) {x : String} {t : Term String} (hx : isQualified x = false)
    (hplain : ∀ y ∈ t.vars, isQualified y = false) (h : env.assign d x t = .ok d') :
    Covers locals inits d' (σ.setInt x (t.eval σ.ints)) := by
  intro v hv
  obtain ⟨hmem, hvars⟩ := Environment.mem_of_assign h
  have hxl := ctx.mem_locals hmem hx
  -- before the assignment, `x` had the value that the machine has for it
  have hold : σ.Extended locals inits (Function.update v x (σ.ints x)) := by
    refine ⟨?_, ?_⟩
    · intro y hy
      by_cases hyx : y = x
      · rw [hyx, Function.update_self]
      · rw [Function.update_of_ne hyx, hv.ints y hy]
        exact Function.update_of_ne hyx _ _
    · intro i hi hk
      obtain ⟨k, hk, hindex, hend⟩ := hv.ends i hi hk
      have hne : i.ghost ≠ x := (ctx.nodup.2.2 x hxl i hi).symm
      exact ⟨k, hk, hindex, by rw [Function.update_of_ne hne, hend]⟩
  have hpoint := Environment.point_assign (hd _ hold) h
  have hvx : v x = t.eval σ.ints := by
    rw [hv.ints x hxl]
    exact Function.update_self _ _ _
  rw [ctx.eval_eq hold hvars hplain, Function.update_idem, ← hvx, Function.update_eq_self] at hpoint
  exact hpoint

end Numeric

namespace Machine.Extended

open Numeric

variable {s : Settings} {env : Environment} {locals : List String}
    {inits : List Initializer} {b : Body}
  {σ : Machine n} {v : String → Int} {receiver : Option Local} {a e : Int} {i : Initializer}

/-- One ghost may keep another end, if it is the end of an interval constructed there. -/
theorem update_ghost (ctx : Context s env locals inits b) (hi : i ∈ inits) {g : Int}
    (hints : ∀ x ∈ locals, v x = σ.ints x)
    (hself : (∃ k ∈ σ.constructions, k.index.val = i.site.index) →
      ∃ k ∈ σ.constructions, k.index.val = i.site.index ∧ g = k.finish)
    (hother : ∀ j ∈ inits, j ≠ i → (∃ k ∈ σ.constructions, k.index.val = j.site.index) →
      ∃ k ∈ σ.constructions, k.index.val = j.site.index ∧ v j.ghost = k.finish) :
    σ.Extended locals inits (Function.update v i.ghost g) := by
  refine ⟨?_, ?_⟩
  · intro x hx
    rw [Function.update_of_ne (ctx.nodup.2.2 x hx i hi)]
    exact hints x hx
  · intro j hj hk
    by_cases hji : j = i
    · subst hji
      rw [Function.update_self]
      exact hself hk
    · rw [Function.update_of_ne fun heq => hji (ctx.ghost_inj hj hi heq)]
      exact hother j hj hji hk

/-- The ends kept for other instructions are those from before. -/
theorem ends_of_construct (hv : (σ.construct receiver a e).Extended locals inits v) (hi : i ∈ inits)
    (hne : i.site.index ≠ σ.pc.val) (hk : ∃ k ∈ σ.constructions, k.index.val = i.site.index) :
    ∃ k ∈ σ.constructions, k.index.val = i.site.index ∧ v i.ghost = k.finish := by
  obtain ⟨k, hk, hindex⟩ := hk
  obtain ⟨k', hk', hindex', hend⟩ := hv.ends i hi ⟨k, List.mem_cons_of_mem _ hk, hindex⟩
  rcases List.mem_cons.mp hk' with rfl | hk'
  · exact absurd hindex'.symm hne
  · exact ⟨k', hk', hindex', hend⟩

theorem ends_of_construct_ne (ctx : Context s env locals inits b)
    (hv : (σ.construct receiver a e).Extended locals inits v) (hi : i ∈ inits)
    (hindex : i.site.index = σ.pc.val) {j : Initializer} (hj : j ∈ inits) (hji : j ≠ i)
    (hk : ∃ k ∈ σ.constructions, k.index.val = j.site.index) :
    ∃ k ∈ σ.constructions, k.index.val = j.site.index ∧ v j.ghost = k.finish := by
  refine hv.ends_of_construct hj (fun heq => ?_) hk
  exact hji (ctx.index_inj j hj i hi (heq.trans hindex.symm))

/-- A valuation whose ghost keeps an end from before was already possible. -/
theorem of_construct_old (ctx : Context s env locals inits b)
    (hv : (σ.construct receiver a e).Extended locals inits v) (hi : i ∈ inits)
    (hindex : i.site.index = σ.pc.val)
    (hold : ∃ k ∈ σ.constructions, k.index.val = i.site.index ∧ v i.ghost = k.finish) :
    σ.Extended locals inits v := by
  refine ⟨hv.ints, fun j hj hk => ?_⟩
  by_cases hji : j = i
  · subst hji
    exact hold
  · exact hv.ends_of_construct_ne ctx hi hindex hj hji hk

/-- Before its interval was constructed, the ghost may have had some other value. -/
theorem before_construct (ctx : Context s env locals inits b)
    (hv : (σ.construct receiver a e).Extended locals inits v) (hi : i ∈ inits)
    (hindex : i.site.index = σ.pc.val) :
    ∃ g, σ.Extended locals inits (Function.update v i.ghost g) := by
  -- an end from an earlier pass, or any integer at the first one
  have hends : ∃ g, (∃ k ∈ σ.constructions, k.index.val = i.site.index) →
      ∃ k ∈ σ.constructions, k.index.val = i.site.index ∧ g = k.finish := by
    by_cases hex : ∃ k ∈ σ.constructions, k.index.val = i.site.index
    · obtain ⟨k, hk, hkindex⟩ := hex
      exact ⟨k.finish, fun _ => ⟨k, hk, hkindex, rfl⟩⟩
    · exact ⟨0, fun hc => absurd hc hex⟩
  obtain ⟨g, hg⟩ := hends
  exact ⟨g, update_ghost ctx hi hv.ints hg fun j hj hji hk =>
    hv.ends_of_construct_ne ctx hi hindex hj hji hk⟩

end Machine.Extended

namespace Numeric

variable {s : Settings} {env : Environment} {locals : List String}
    {inits : List Initializer} {b : Body}
  {args : Nat → Int} {d d' : Octagon env.size} {σ τ : Machine n}

theorem Covers.construct_untracked (hd : Covers locals inits d σ)
    (hnone : ∀ i ∈ inits, i.site.index ≠ σ.pc.val) (receiver : Option Local) (a e : Int) :
    Covers locals inits d (σ.construct receiver a e) := by
  intro v hv
  exact hd v ⟨hv.ints, fun i hi hk => hv.ends_of_construct hi (hnone i hi) hk⟩

/-- The ghost takes the new end. On a cycle it may also keep an older one, and off the cycles there
is none. -/
theorem Covers.construct (hd : Covers locals inits d σ) (ctx : Context s env locals inits b)
    {i : Initializer} (hi : i ∈ inits) (hindex : i.site.index = σ.pc.val) {onCycle : Bool}
    (honce : onCycle = false → ∀ k ∈ σ.constructions, k.index ≠ σ.pc) {e : Int}
    (he : i.finish.Value args σ.ints e) (hplain : ∀ x ∈ i.finish.locals, isQualified x.name = false)
    (h : Numeric.construct env i onCycle d = .ok d') (receiver : Option Local) (a : Int) :
    Covers locals inits d' (σ.construct receiver a e) := by
  obtain ⟨t, ht, h⟩ := Except.bind_eq_ok.mp h
  obtain ⟨assigned, hassigned, h⟩ := Except.bind_eq_ok.mp h
  obtain rfl := Except.pure_eq_ok.mp h
  have hvars := (Environment.mem_of_assign hassigned).2
  intro v hv
  obtain ⟨k, hk, hkindex, hkend⟩ := hv.ends i hi ⟨_, List.mem_cons_self, hindex.symm⟩
  -- the ghost keeps the end that is new, or one from an earlier pass over this instruction
  rcases List.mem_cons.mp hk with rfl | hk
  · obtain ⟨g, hold⟩ := hv.before_construct ctx hi hindex
    have hend : t.eval (Function.update v i.ghost g) = v i.ghost := by
      rw [ctx.eval_eq hold hvars (Code.Expr.plain_of_term ht hplain),
        ← (Code.Expr.value_iff_of_term ht).mp he]
      exact hkend.symm
    have hpoint := Environment.point_assign (hd _ hold) hassigned
    rw [hend, Function.update_idem, Function.update_eq_self] at hpoint
    cases onCycle with
    | false => exact hpoint
    | true => exact Octagon.Point.join (.inr hpoint)
  · have hcycle : onCycle = true := by
      by_contra hc
      exact honce (by simpa using hc) k hk (Fin.ext (hkindex.trans hindex))
    subst hcycle
    exact Octagon.Point.join
      (.inl (hd v (hv.of_construct_old ctx hi hindex ⟨k, hk, hkindex, hkend⟩)))

theorem Covers.assign_effect (hd : Covers locals inits d σ) (ctx : Context s env locals inits b)
    {target : Place} {value : Expr} {e : Edge}
    (hplain : ∀ x ∈ target.locals ++ value.locals, isQualified x.name = false)
    (hlead : ∀ x p, target = .var x → value = .param p → x.ty = .int → ∀ w, d.Point w)
    (effect : Effect s args σ (.assign target value) e τ)
    (h : Numeric.assign env target value d = .ok d') : e = .fall ∧ Covers locals inits d' τ := by
  obtain ⟨x, rfl, ⟨hty, rfl⟩ | ⟨hty, ⟨p, rfl⟩, rfl⟩ | ⟨hty, t, ht, h⟩⟩ := assign_cases h
  · cases effect with
    | assignInt ty =>
      rw [ty] at hty
      cases hty
    | assignRef _ _ =>
      refine ⟨rfl, hd.congr ?_ ?_⟩ <;> cases value <;> rfl
    | assignOther _ hother => exact ⟨rfl, hd⟩
  · cases effect with
    | assignInt ty value => exact ⟨rfl, fun v _ => hlead x p rfl rfl hty _⟩
    | assignRef _ ty =>
      rw [hty] at ty
      cases ty
    | assignOther _ hother => exact ⟨rfl, hd⟩
  · cases effect with
    | assignInt ty hvalue =>
      refine ⟨rfl, ?_⟩
      rw [(Code.Expr.value_iff_of_term ht).mp hvalue]
      exact hd.assign ctx (hplain x List.mem_cons_self)
        (Code.Expr.plain_of_term ht fun y hy => hplain y (List.mem_append_right _ hy)) h
    | assignRef _ ty =>
      rw [hty] at ty
      cases ty
    | assignOther _ hother =>
      have hdouble := hother x rfl
      rw [hty] at hdouble
      cases hdouble

theorem Covers.call_effect (hd : Covers locals inits d σ) (ctx : Context s env locals inits b)
    {c : Call} {e : Edge} {init : Option Initializer} {onCycle : Bool}
    (hplain : ∀ x ∈ c.args.flatMap Code.Expr.locals, isQualified x.name = false)
    (hsome : ∀ i, init = some i → i ∈ inits ∧ i.site.index = σ.pc.val ∧
      ∃ start, s.bounds? c = some (start, i.finish))
    (hnone : init = none → ∀ i ∈ inits, i.site.index ≠ σ.pc.val)
    (honce : onCycle = false → ∀ k ∈ σ.constructions, k.index ≠ σ.pc)
    (effect : Effect s args σ (.call c) e τ)
    (h : Numeric.call env init onCycle c d = .ok d') : e = .fall ∧ Covers locals inits d' τ := by
  rcases call_cases h with ⟨hkind, rfl⟩ | ⟨hinit, rfl⟩ | ⟨i, hinit, h⟩
  · cases effect with
    | call _ => exact ⟨rfl, hd⟩
    | construct hb =>
      rw [(Settings.of_bounds? hb).1] at hkind
      cases hkind
  · cases effect with
    | call _ => exact ⟨rfl, hd⟩
    | construct _ _ _ => exact ⟨rfl, hd.construct_untracked (hnone hinit) _ _ _⟩
  · obtain ⟨hi, hindex, start, hb⟩ := hsome i hinit
    cases effect with
    | call hno =>
      rw [hb] at hno
      cases hno
    | construct hb' _ last =>
      rw [hb] at hb'
      obtain ⟨rfl, rfl⟩ := Prod.mk.inj (Option.some.inj hb')
      refine ⟨rfl, hd.construct ctx hi hindex honce last ?_ h _ _⟩
      intro x hx
      apply hplain x
      rw [(Settings.of_bounds? hb).2.2]
      exact List.mem_flatMap.mpr ⟨i.finish, by simp, hx⟩

theorem Covers.branch_effect (hd : Covers locals inits d σ) (ctx : Context s env locals inits b)
    {cond : Expr} {target : Fin n} {e : Edge} {br : Branching} {passed taken : Octagon env.size}
    (hplain : ∀ x ∈ cond.locals, isQualified x.name = false)
    (effect : Effect s args σ (.branch cond target) e τ) (hbr : cond.branching = .ok br)
    (hpassed : env.meet d br.passed = .ok passed) (htaken : env.meet d br.taken = .ok taken) :
    ∃ d', (Outflow.mk (some passed) (some taken)).on e = some d' ∧ Covers locals inits d' τ := by
  have hvars : ∀ outcome, ∀ x ∈ (br.on outcome).term.vars, isQualified x = false := by
    intro outcome x hx
    obtain ⟨y, hy, rfl⟩ := Code.Expr.mem_locals_of_branching hbr outcome hx
    exact hplain y hy
  cases effect with
  | pass outcome => exact ⟨passed, rfl, hd.meet ctx (outcome.holds hbr) (hvars false) hpassed⟩
  | take outcome => exact ⟨taken, rfl, hd.meet ctx (outcome.holds hbr) (hvars true) htaken⟩

/-- What covers a machine is transferred to what covers it after the instruction. -/
theorem Covers.transfer {σ τ : Machine b.size} (hd : Covers locals inits d σ)
    (ctx : Context s env locals inits b) {instr : Instr b.size} (hinstr : b.code.get σ.pc = instr)
    {e : Edge} {init : Option Initializer} {onCycle : Bool} {out : Outflow (Octagon env.size)}
    (hsome : ∀ i, init = some i → i ∈ inits ∧ i.site.index = σ.pc.val)
    (hnone : init = none → ∀ i ∈ inits, i.site.index ≠ σ.pc.val)
    (honce : onCycle = false → ∀ k ∈ σ.constructions, k.index ≠ σ.pc)
    (hlead : ∀ x p, instr = .assign (.var x) (.param p) → x.ty = .int → ∀ w, d.Point w)
    (effect : Effect s args σ instr e τ) (h : Numeric.transfer env init onCycle instr d = .ok out) :
    ∃ d', out.on e = some d' ∧ Covers locals inits d' τ := by
  have hplain := ctx.plain σ.pc
  rw [hinstr] at hplain
  cases instr with
  | assign target value =>
    obtain ⟨d', hd', rfl⟩ := transfer_assign.mp h
    have hlead' : ∀ x p, target = .var x → value = .param p → x.ty = .int → ∀ w, d.Point w := by
      rintro x p rfl rfl
      exact hlead x p rfl
    obtain ⟨rfl, hcov⟩ := hd.assign_effect ctx hplain hlead' effect hd'
    exact ⟨d', rfl, hcov⟩
  | branch cond target =>
    obtain ⟨br, passed, taken, hbr, hpassed, htaken, rfl⟩ := transfer_branch.mp h
    exact hd.branch_effect ctx hplain effect hbr hpassed htaken
  | goto target =>
    obtain rfl := Except.ok.inj h
    cases effect
    exact ⟨d, rfl, hd⟩
  | call c =>
    obtain ⟨d', hd', rfl⟩ := transfer_call.mp h
    have hcall : ∀ i, init = some i → i ∈ inits ∧ i.site.index = σ.pc.val ∧
        ∃ start, s.bounds? c = some (start, i.finish) := by
      intro i hi
      obtain ⟨hmem, hindex⟩ := hsome i hi
      exact ⟨hmem, hindex, ctx.bounds_of_call hmem hindex hinstr⟩
    obtain ⟨rfl, hcov⟩ :=
      hd.call_effect ctx (fun x hx => hplain x (List.mem_append_right _ hx)) hcall
      hnone honce effect hd'
    exact ⟨d', rfl, hcov⟩
  | returnVoid => cases effect
  | returnValue value => cases h
  | throwValue value => cases h

end Numeric

end Lifespan
