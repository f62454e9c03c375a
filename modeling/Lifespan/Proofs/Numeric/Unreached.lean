import Lifespan.Proofs.Lockstep
import Lifespan.Proofs.Numeric.Support
import Lifespan.Proofs.Numeric.Termination
import Lifespan.Proofs.Octagon.Assignment
import Lifespan.Proofs.Octagon.Join

namespace Lifespan

open Dataflow

namespace Octagon

variable {n : Nat} {a a' d d' : Octagon n}

/-- The matrix that still has to be closed, if there is one. -/
def unclosed : Octagon n → List (Matrix n)
  | loose m => [m]
  | _ => []

theorem closable_of_unclosed (h : ∀ m ∈ a.unclosed, m.Small) : a.Closable := by
  rintro m rfl
  exact h m (List.mem_singleton_self m)

theorem marked_small : Marked Matrix.Small (Matrix.Tight (n := n)) := marked_tight fun _ h => h

/-- The same closed matrix, which is tight. -/
structure SameClosure (a a' : Octagon n) : Prop where
  normal : a.Normal
  closure : a'.closure? = a.closure?

/-- The same closed matrix, which neither octagon has to compute. -/
structure SameClosed (a a' : Octagon n) : Prop extends SameClosure a a' where
  closed : a.matrix? = a.closure?
  closed' : a'.matrix? = a'.closure?

/-- The same matrix, closed or not. -/
structure SameMatrix (a a' : Octagon n) : Prop where
  represents : a.Represents Matrix.Tight
  matrix : a'.matrix? = a.matrix?
  closure : a'.closure? = a.closure?

theorem Normal.sameClosure_refl (h : a.Normal) : SameClosure a a := ⟨h, rfl⟩

theorem SameClosure.normal' (h : SameClosure a a') : a'.Normal := by
  intro m hm
  exact h.normal m (h.closure.symm.trans hm)

theorem SameClosed.symm (h : SameClosed a a') : SameClosed a' a :=
  ⟨⟨h.normal', h.closure.symm⟩, h.closed', h.closed⟩

theorem SameClosure.same_eq (h : SameClosure a a') (hd : SameClosure d d') :
    a'.same d' = a.same d := by
  unfold same
  rw [h.closure, hd.closure]

theorem matrix?_join (a b : Octagon n) :
    (a.join b).matrix? = Option.merge Matrix.join a.closure? b.closure? := by
  unfold join
  cases a.closure? <;> cases b.closure? <;> rfl

theorem SameClosure.join (hd : SameClosure d d') (ha : SameClosure a a') :
    SameClosure (d.join a) (d'.join a') := by
  refine ⟨hd.normal.join ha.normal, ?_⟩
  rw [hd.normal'.closure?_join ha.normal', hd.normal.closure?_join ha.normal,
    hd.closure, ha.closure]

theorem SameClosed.join (hd : SameClosed d d') (ha : SameClosure a a') :
    SameClosed (d.join a) (d'.join a') := by
  refine ⟨hd.toSameClosure.join ha, ?_, ?_⟩
  · rw [matrix?_join, hd.normal.closure?_join ha.normal]
  · rw [matrix?_join, hd.normal'.closure?_join ha.normal']

theorem SameClosed.join_empty (hd : SameClosed d d') : SameClosed (d.join empty) d' := by
  have hjoin : (d.join empty).closure? = d.closure? := by
    rw [hd.normal.closure?_join normal_empty]
    exact Option.merge_none_right
  refine ⟨⟨hd.normal.join normal_empty, hd.closure.trans hjoin.symm⟩, ?_, hd.closed'⟩
  rw [matrix?_join, hd.normal.closure?_join normal_empty]

theorem sameClosed_top (n : Nat) : SameClosed (top n) (top n) := by
  refine ⟨⟨?_, rfl⟩, rfl, rfl⟩
  intro m hm
  obtain rfl := Option.some.inj hm
  exact Matrix.tight_top n

theorem sameClosed_empty (n : Nat) : SameClosed (empty : Octagon n) empty :=
  ⟨⟨normal_empty, rfl⟩, rfl, rfl⟩

theorem SameClosed.sameMatrix (h : SameClosed a a') : SameMatrix a a' := by
  refine ⟨?_, h.closed'.trans (h.closure.trans h.closed.symm), h.closure⟩
  cases a with
  | empty => trivial
  | loose m => exact (h.normal m h.closed.symm).toRegular
  | tight m => exact h.normal m rfl

/-- Where both are there, the widening has the same form whatever form they had. -/
theorem SameMatrix.widen (ha : SameMatrix a a') (hd : SameClosed d d') :
    SameMatrix (a.widen d) (a'.widen d') := by
  unfold Octagon.widen
  rw [ha.matrix, hd.closure]
  -- where one of them is empty, the other is passed on in its own form
  cases hm : a.matrix? with
  | none => exact hd.sameMatrix
  | some m =>
    cases hk : d.closure? with
    | none => exact ha
    | some k =>
      have hregular : m.Regular := ha.represents.regular marked_small hm
      exact ⟨hregular.widen (hd.normal k hk).toRegular, rfl, rfl⟩

theorem SameMatrix.sameClosure (h : SameMatrix a a') (hclosable : a.Closable) : SameClosure a a' :=
  ⟨fun _ hm => h.represents.of_closure? marked_small hclosable hm, h.closure⟩

theorem SameMatrix.meet (h : SameMatrix d d') (hclosable : d.Closable) {c : Constraint (Fin n)}
    (hsmall : ∀ m ∈ (d.refined? c).toList, m.Small) : d'.meet c = d.meet c ∧ (d.meet c).Normal := by
  refine ⟨by rw [Octagon.meet, Octagon.meet, h.closure], fun m hm => ?_⟩
  have hmeet :=
    h.represents.meet marked_small hclosable fun m hm => hsmall m (Option.mem_toList.mpr hm)
  exact hmeet.of_closure? marked_small (closable_meet d c) hm

theorem SameMatrix.assign (h : SameMatrix d d') (hclosable : d.Closable) {x : Fin n}
    {t : Term (Fin n)} (hsmall : ∀ m ∈ (d.replaced? x t).toList ++
      (d.translated? x t).toList, m.Small) :
    d'.assign x t = d.assign x t ∧ (d.assign x t).Normal := by
  refine ⟨assign_eq_of_closure? h.closure, fun m hm => ?_⟩
  have hassign := h.represents.assign marked_small hclosable
    (fun m hm => hsmall m (List.mem_append_left _ (Option.mem_toList.mpr hm)))
    (fun m hm => hsmall m (List.mem_append_right _ (Option.mem_toList.mpr hm)))
  exact hassign.of_closure? marked_small (closable_assign d x t) hm

end Octagon

namespace Environment

variable (env : Environment) (s : Octagon env.size)

/-- The matrix that a constraint leaves to be closed. -/
def refining (c : Except Error (Constraint String)) : List (Matrix env.size) :=
  match c.bind (·.resolve env.index) with
  | .ok c => (s.refined? c).toList
  | .error _ => []

/-- The matrix that an assignment leaves to be closed or translates. -/
def replacing (x : String) (t : Except Error (Term String)) : List (Matrix env.size) :=
  match env.index x, t.bind (·.resolve env.index) with
  | .ok x, .ok t => (s.replaced? x t).toList ++ (s.translated? x t).toList
  | _, _ => []

variable {env} {d d' a : Octagon env.size}

theorem meet_of_sameMatrix (h : d.SameMatrix d') (hclosable : d.Closable) {c : Constraint String}
    (hsmall : ∀ m ∈ env.refining d (.ok c), m.Small) (ha : env.meet d c = .ok a) :
    env.meet d' c = .ok a ∧ a.Normal := by
  obtain ⟨c', hc', ha⟩ := Except.bind_eq_ok.mp ha
  obtain rfl := Except.pure_eq_ok.mp ha
  have hrefining : env.refining d (.ok c) = (d.refined? c').toList := by
    simp [refining, Except.bind, hc']
  obtain ⟨heq, hnormal⟩ := h.meet hclosable (hrefining ▸ hsmall)
  exact ⟨Except.bind_eq_ok.mpr ⟨c', hc', by rw [heq]; rfl⟩, hnormal⟩

theorem assign_of_sameMatrix (h : d.SameMatrix d') (hclosable : d.Closable) {x : String}
    {t : Term String} (hsmall : ∀ m ∈ env.replacing d x (.ok t), m.Small)
    (ha : env.assign d x t = .ok a) :
    env.assign d' x t = .ok a ∧ a.Normal := by
  obtain ⟨i, hi, ha⟩ := Except.bind_eq_ok.mp ha
  obtain ⟨t', ht', ha⟩ := Except.bind_eq_ok.mp ha
  obtain rfl := Except.pure_eq_ok.mp ha
  have hreplacing : env.replacing d x (.ok t) = (d.replaced? i t').toList ++
      (d.translated? i t').toList := by
    simp [replacing, Except.bind, hi, ht']
  obtain ⟨heq, hnormal⟩ := h.assign hclosable (hreplacing ▸ hsmall)
  exact ⟨Except.bind_eq_ok.mpr ⟨i, hi, Except.bind_eq_ok.mpr ⟨t', ht', by rw [heq]; rfl⟩⟩, hnormal⟩

end Environment

namespace Numeric

/-- The matrices that an instruction closes or translates. -/
def handled {n : Nat} (env : Environment) (init : Option Initializer) (instr : Instr n)
    (s : Octagon env.size) :
    List (Matrix env.size) :=
  s.unclosed ++ match instr with
    | .assign (.var x) value => if x.ty = .int then env.replacing s x.name value.term else []
    | .branch cond _ =>
      [cond.branching.map (·.passed), cond.branching.map (·.taken)].flatMap (env.refining s)
    | .call _ => init.elim [] fun i => env.replacing s i.ghost i.finish.term
    | _ => []

section Transfer

variable {env : Environment} {init : Option Initializer} {onCycle : Bool} {n : Nat}
    {instr : Instr n}
  {d d' a a' : Octagon env.size} {out : Outflow (Octagon env.size)}

theorem rel_fall (h : a.SameClosure a') (e : Edge) :
    Option.Rel Octagon.SameClosure ((⟨some a, none⟩ : Outflow _).on e)
    ((⟨some a', none⟩ : Outflow _).on e) := by
  cases e with
  | fall => exact .some h
  | branch => exact .none

theorem rel_branch (h : a.SameClosure a') (e : Edge) :
    Option.Rel Octagon.SameClosure ((⟨none, some a⟩ : Outflow _).on e)
    ((⟨none, some a'⟩ : Outflow _).on e) := by
  cases e with
  | fall => exact .none
  | branch => exact .some h

theorem construct_of_sameMatrix {i : Initializer} (h : d.SameMatrix d') (hclosable : d.Closable)
    (hsmall : ∀ m ∈ env.replacing d i.ghost i.finish.term, m.Small)
    (ha : construct env i onCycle d = .ok a) :
    ∃ a', construct env i onCycle d' = .ok a' ∧ a.SameClosure a' := by
  obtain ⟨t, ht, ha⟩ := Except.bind_eq_ok.mp ha
  obtain ⟨assigned, hassigned, ha⟩ := Except.bind_eq_ok.mp ha
  obtain rfl := Except.pure_eq_ok.mp ha
  rw [ht] at hsmall
  obtain ⟨hassigned', hnormal⟩ := Environment.assign_of_sameMatrix h hclosable hsmall hassigned
  refine ⟨_, Except.bind_eq_ok.mpr ⟨t, ht, Except.bind_eq_ok.mpr ⟨assigned, hassigned', rfl⟩⟩, ?_⟩
  cases onCycle with
  | false => exact hnormal.sameClosure_refl
  | true => exact (h.sameClosure hclosable).join hnormal.sameClosure_refl

/-- An instruction reads the closed matrix of a state, and passes the state on as it is or sends a
closed one. -/
theorem transfer_of_sameMatrix (h : d.SameMatrix d')
    (hsmall : ∀ m ∈ handled env init instr d, m.Small)
    (ho : transfer env init onCycle instr d = .ok out) :
    ∃ out', transfer env init onCycle instr d' = .ok out' ∧
      ∀ e, Option.Rel Octagon.SameClosure (out.on e) (out'.on e) := by
  have hclosable := Octagon.closable_of_unclosed fun m hm => hsmall m (List.mem_append_left _ hm)
  have hkept : d.SameClosure d' := h.sameClosure hclosable
  have hmore := fun m hm => hsmall m (List.mem_append_right _ hm)
  cases supported_of_transfer ho with
  | @object x cls value ty =>
    obtain ⟨name, _⟩ := x
    subst ty
    obtain rfl := Except.ok.inj ho
    exact ⟨_, rfl, rel_fall hkept⟩
  | @param x p ty =>
    obtain ⟨name, _⟩ := x
    subst ty
    obtain rfl := Except.ok.inj ho
    exact ⟨_, rfl, rel_fall hkept⟩
  | @int x value ty known =>
    obtain ⟨t, ht, -⟩ := Code.Expr.over_iff.mp known
    obtain ⟨a, ha, rfl⟩ := transfer_assign.mp ho
    rw [assign_int ty ht] at ha
    simp only [ty, ht, if_true] at hmore
    obtain ⟨ha', hnormal⟩ := Environment.assign_of_sameMatrix h hclosable hmore ha
    exact ⟨_, transfer_assign.mpr ⟨a, (assign_int ty ht).trans ha', rfl⟩,
      rel_fall hnormal.sameClosure_refl⟩
  | branch op left right target =>
    obtain ⟨b, passed, taken, hb, hpassed, htaken, rfl⟩ := transfer_branch.mp ho
    simp only [hb, Except.map, List.flatMap_cons, List.flatMap_nil, List.append_nil] at hmore
    obtain ⟨hpassed', hnormal⟩ := Environment.meet_of_sameMatrix h hclosable
      (fun m hm => hmore m (List.mem_append_left _ hm)) hpassed
    obtain ⟨htaken', hnormal'⟩ := Environment.meet_of_sameMatrix h hclosable
      (fun m hm => hmore m (List.mem_append_right _ hm)) htaken
    refine ⟨_, transfer_branch.mpr ⟨b, passed, taken, hb, hpassed', htaken', rfl⟩, fun e => ?_⟩
    cases e with
    | fall => exact .some hnormal.sameClosure_refl
    | branch => exact .some hnormal'.sameClosure_refl
  | goto target =>
    obtain rfl := Except.ok.inj ho
    exact ⟨_, rfl, rel_branch hkept⟩
  | returnVoid =>
    obtain rfl := Except.ok.inj ho
    exact ⟨_, rfl, rel_fall hkept⟩
  | @virtual c kind =>
    have hcall : ∀ s, call env init onCycle c s = .ok s := fun s => if_pos kind
    obtain ⟨a, ha, rfl⟩ := transfer_call.mp ho
    obtain rfl := Except.ok.inj ((hcall d).symm.trans ha)
    exact ⟨_, transfer_call.mpr ⟨d', hcall d', rfl⟩, rel_fall hkept⟩
  | @untracked c kind constructs unregistered =>
    subst unregistered
    have hcall : ∀ s, call env none onCycle c s = .ok s := fun s => call_constructor kind constructs
    obtain ⟨a, ha, rfl⟩ := transfer_call.mp ho
    obtain rfl := Except.ok.inj ((hcall d).symm.trans ha)
    exact ⟨_, transfer_call.mpr ⟨d', hcall d', rfl⟩, rel_fall hkept⟩
  | @construct c i kind constructs registered known =>
    subst registered
    have hcall : ∀ s, call env (some i) onCycle c s = construct env i onCycle s :=
      fun s => call_constructor kind constructs
    obtain ⟨a, ha, rfl⟩ := transfer_call.mp ho
    obtain ⟨a', ha', hsame⟩ := construct_of_sameMatrix h hclosable hmore ((hcall d).symm.trans ha)
    exact ⟨_, transfer_call.mpr ⟨a', (hcall d').trans ha', rfl⟩, rel_fall hsame⟩

end Transfer

section Unreached

variable {env : Environment} {r : Resolver} {id : Nat} {b : Body}

theorem dormant_of_visits {vs : List (Visit (Octagon env.size) b.size)}
    {t : Iteration (Octagon env.size) b.size}
    (h : (problem env r id b).Visits (problem env r id b).start vs t) :
    (problem env r id b).Dormant t :=
  h.preserves (fun _ _ _ _ produced hs => hs.update (problem_strict env r id b)
    Octagon.same_refl produced)
    (problem env r id b).dormant_start

variable {code : Vector (Instr b.size) b.size}

theorem graph_agreesWith (hreached : ∀ i, b.graph.FromEntry i → code.get i = b.code.get i) :
    b.graph.AgreesWith (Graph.ofCode code) := by
  intro i hi
  simp only [Body.graph, Graph.successors, Graph.ofCode, Vector.get_ofFn, hreached i hi]

/-- The analyses of two bodies that differ where no path leads. -/
theorem lockstep (ends : (code.get ⟨b.size - 1, Nat.sub_one_lt_of_lt b.pos⟩).fallsThrough = false)
    (hreached : ∀ i, b.graph.FromEntry i → code.get i = b.code.get i)
    (haccepts : ∀ i, ¬ b.graph.FromEntry i → ∀ onCycle d,
      ∃ out, transfer env (r.initializerAt ⟨id, i⟩) onCycle (code.get i) d = .ok out) :
    Lockstep (problem env r id b) (problem env r id ⟨b.size, code, b.pos, ends⟩)
      (fun i d => ∀ m ∈ handled env (r.initializerAt ⟨id, i⟩) (b.code.get i) d, m.Small)
      Octagon.SameClosed Octagon.SameMatrix Octagon.SameClosure where
  graph := graph_agreesWith hreached
  threshold := rfl
  strict := problem_strict env r id b
  strict' := problem_strict env r id _
  same_refl := Octagon.same_refl
  entry := Octagon.sameClosed_top _
  bottom := Octagon.sameClosed_empty _
  sent_bottom := (Octagon.sameClosed_empty _).toSameClosure
  join hd ha := hd.join ha
  join_bottom hd := hd.join_empty
  join_bottom' hd := hd.symm.join_empty.symm
  arrived hd := hd.sameMatrix
  widen ha hd := ha.widen hd
  same ha hb := ha.same_eq hb
  transfer {i d d' out} hi hfits hd ho := by
    have hcycle := (graph_agreesWith hreached).isOnCycle_eq hi
    have hsame : ∀ s, (problem env r id ⟨b.size, code, b.pos, ends⟩).transfer i s =
        (problem env r id b).transfer i s := by
      intro s
      change transfer env _ ((Graph.ofCode code).isOnCycle i) (code.get i) s = _
      rw [hcycle, hreached i hi]
      rfl
    rw [hsame]
    exact transfer_of_sameMatrix hd hfits ho
  accepts {i} hi := haccepts i hi _ _

end Unreached

/-- Where no path leads the states stay empty, at every step of the analysis and in its result. So
other instructions there, as long as they can be analyzed, change neither the number of steps nor
the other states, provided that the bounds of the matrices that are closed or translated on the way
are far from the limit. -/
theorem unreached_without_influence (env : Environment) (r : Resolver) (id : Nat) (b : Body) :
    (∀ vs t, (problem env r id b).Visits (problem env r id b).start vs t →
      ∀ j, ¬ b.graph.FromEntry j → t.nodes.get j = ⟨.empty, .empty, .empty⟩) ∧
    ∀ fuel sol, ((problem env r id b).solve fuel).result = .ok sol →
      (∀ j, ¬ b.graph.FromEntry j → sol.nodes.get j = ⟨.empty, .empty, .empty⟩) ∧
      ((∀ v ∈ (problem env r id b).visits fuel (problem env r id b).start,
          ∀ m ∈ handled env (r.initializerAt ⟨id, v.index⟩) (b.code.get v.index)
          v.incoming, m.Small) →
        ∀ (code : Vector (Instr b.size) b.size)
          (ends : (code.get ⟨b.size - 1, Nat.sub_one_lt_of_lt b.pos⟩).fallsThrough = false),
        (∀ i, b.graph.FromEntry i → code.get i = b.code.get i) →
        (∀ i, ¬ b.graph.FromEntry i → Supported env (r.initializerAt ⟨id, i⟩) (code.get i) ∧
          (∀ x, (code.get i).AssignsInt x → x ∈ env.vars) ∧
          ∀ init, r.initializerAt ⟨id, i⟩ = some init → init.ghost ∈ env.vars) →
        ∃ sol', ((problem env r id ⟨b.size, code, b.pos, ends⟩).solve fuel).result = .ok sol' ∧
          sol'.steps = sol.steps ∧
          ∀ i, b.graph.FromEntry i →
            (sol'.nodes.get i).incoming.same (sol.nodes.get i).incoming = true ∧
            ∀ e, ((sol'.nodes.get i).out e).same ((sol.nodes.get i).out e) = true) := by
  refine ⟨fun vs t hv => (dormant_of_visits hv).node, fun fuel sol hsol => ⟨?_, ?_⟩⟩
  · obtain ⟨t, hv, -, rfl⟩ := Problem.visits_of_run hsol
    exact (dormant_of_visits hv).node
  · intro hsmall code ends hreached hsupported
    have haccepts : ∀ i, ¬ b.graph.FromEntry i → ∀ onCycle d,
        ∃ out, transfer env (r.initializerAt ⟨id, i⟩) onCycle (code.get i) d = .ok out :=
          fun i hi onCycle d => by
      obtain ⟨hform, htarget, hghost⟩ := hsupported i hi
      exact hform.exists_transfer htarget hghost onCycle d
    have h := lockstep ends hreached haccepts
    obtain ⟨t, t', ht, rfl, hrun⟩ := h.run h.alongside_start hsmall hsol
    refine ⟨_, hrun, ht.steps, fun i hi => ⟨?_, fun e => ?_⟩⟩
    · exact decide_eq_true (ht.incoming hi).closure
    · exact decide_eq_true (ht.out hi e).closure

/-- A loop, then an instruction that is skipped. -/
def skipping (instr : Instr 5) : Vector (Instr 5) 5 :=
  let k : Local := ⟨"k", .int⟩
  #v[.assign (.var k) (.int 0),
    .branch (.compare .lt (.var k) (.int 3)) ⟨0, Nat.le_add_left 1 4⟩,
    .goto (Fin.last 4),
    instr,
    .returnVoid]

/-- The skipped instruction leads to the end. -/
def skippingBody : Body where
  size := 5
  code := skipping (.assign (.var ⟨"k", .int⟩) (.int 7))
  pos := Nat.le_add_left 1 4
  ends := Eq.refl false

/-- Its analysis. -/
def skippingProblem : Problem (Octagon Analysis.strandedEnvironment.size) skippingBody.size :=
  problem Analysis.strandedEnvironment Analysis.strandedResolver 0 skippingBody

theorem skipping_adj (i j : Fin skippingBody.size) :
    skippingBody.graph.Adj i j ↔ (i.val, j.val) ∈ [(0, 1), (1, 0), (1, 2), (2, 4), (3, 4)] := by
  revert i j
  decide

theorem skipping_fromEntry_iff {j : Fin skippingBody.size} :
    skippingBody.graph.FromEntry j ↔ j.val ≠ 3 := by
  constructor
  · rintro ⟨i, h0, hpath⟩
    cases hpath with
    | refl => omega
    | tail _ adj =>
      have hedge := (skipping_adj _ _).mp adj
      simp only [List.mem_cons, Prod.mk.injEq, List.not_mem_nil, or_false] at hedge
      omega
  · intro hj
    have h0 : skippingBody.graph.FromEntry ⟨0, Nat.le_add_left 1 4⟩ := ⟨_, rfl, .refl⟩
    have h1 := h0.adj ((skipping_adj _ (1 : Fin 5)).mpr (by decide))
    have h2 := h1.adj ((skipping_adj _ (2 : Fin 5)).mpr (by decide))
    have h4 := h2.adj ((skipping_adj _ (4 : Fin 5)).mpr (by decide))
    obtain ⟨_ | _ | _ | _ | _ | j, hlt⟩ := j
    · exact h0
    · exact h1
    · exact h2
    · exact absurd rfl hj
    · exact h4
    · exact absurd hlt (Nat.not_lt.mpr (Nat.le_add_left 5 j))

theorem skipping_settles : (skippingProblem.solve stepLimit).result.isOk = true ∧
    ∀ v ∈ skippingProblem.visits stepLimit skippingProblem.start,
      ∀ m ∈ handled Analysis.strandedEnvironment none (skippingBody.code.get v.index) v.incoming,
      m.Within 20 := by
  have hhead : ∀ i, skippingBody.graph.loopHeads.contains i = decide (i.val = 0) :=
    Graph.contains_loopHeads_of_all (by cbv)
  have hcycle : ∀ i, skippingBody.graph.onCycle.contains i = decide (i.val ≤ 1) :=
    Graph.contains_onCycle_of_all (by cbv)
  simp only [Problem.solve, Problem.start, skippingProblem, problem, hhead, hcycle]
  constructor
  · decide +kernel
  · decide +kernel

/-- The skipped instruction leads back into the loop. -/
def returningBody : Body where
  size := 5
  code := skipping (.goto ⟨0, Nat.le_add_left 1 4⟩)
  pos := Nat.le_add_left 1 4
  ends := Eq.refl false

theorem unreached_without_influence_skipping :
    ∃ sol sol', (skippingProblem.solve stepLimit).result = .ok sol ∧
      ((problem Analysis.strandedEnvironment Analysis.strandedResolver 0 returningBody).solve
        stepLimit).result =
        .ok sol' ∧
      sol.nodes.get (3 : Fin 5) = ⟨.empty, .empty, .empty⟩ ∧ sol'.steps = sol.steps ∧
      (sol'.nodes.get (0 : Fin 5)).incoming.same (sol.nodes.get (0 : Fin 5)).incoming = true ∧
      (sol'.nodes.get (4 : Fin 5)).incoming.same (sol.nodes.get (4 : Fin 5)).incoming = true := by
  obtain ⟨hok, hwithin⟩ := skipping_settles
  cases hsol : (skippingProblem.solve stepLimit).result with
  | error e =>
    rw [hsol] at hok
    cases hok
  | ok sol =>
    obtain ⟨-, hinfluence⟩ :=
      unreached_without_influence Analysis.strandedEnvironment Analysis.strandedResolver 0
      skippingBody
    obtain ⟨hempty, hsame⟩ := hinfluence stepLimit sol hsol
    have hreached : ∀ i : Fin skippingBody.size, skippingBody.graph.FromEntry i →
        returningBody.code.get i = skippingBody.code.get i := by
      rintro ⟨_ | _ | _ | _ | _ | i, hlt⟩ hi
      · rfl
      · rfl
      · rfl
      · exact absurd rfl (skipping_fromEntry_iff.mp hi)
      · rfl
      · exact absurd hlt (Nat.not_lt.mpr (Nat.le_add_left 5 i))
    obtain ⟨sol', hsol', hsteps, hstates⟩ :=
      hsame (fun v hv m hm => ⟨20, by decide, hwithin v hv m hm⟩)
      returningBody.code returningBody.ends hreached fun i hi => by
        obtain rfl : i = (3 : Fin 5) := Fin.ext (not_not.mp (skipping_fromEntry_iff.not.mp hi))
        exact ⟨.goto _, by rintro x ⟨⟩, by rintro init ⟨⟩⟩
    refine ⟨sol, sol', rfl, hsol', hempty _ (skipping_fromEntry_iff.not.mpr (by decide)), hsteps,
      ?_, ?_⟩
    · exact (hstates _ (skipping_fromEntry_iff.mpr (by decide))).1
    · exact (hstates _ (skipping_fromEntry_iff.mpr (by decide))).1

end Numeric

end Lifespan
