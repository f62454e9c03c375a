import Lifespan.Proofs.ControlFlow
import Lifespan.Proofs.Unreachable

namespace Lifespan

namespace Graph

variable {n : Nat} {g g' : Graph n} {i j : Fin n} {l : List (Fin n)}

/-- The same edges leave what paths from the first instruction reach. -/
def AgreesWith (g g' : Graph n) : Prop := ∀ i, g.FromEntry i → g'.successors i = g.successors i

namespace AgreesWith

variable (h : g.AgreesWith g')

include h

theorem adj_iff (hi : g.FromEntry i) : g'.Adj i j ↔ g.Adj i j := by
  unfold Adj next
  rw [h i hi]

/-- Paths that start at a reachable instruction stay among such. -/
theorem path_iff (hi : g.FromEntry i) : g'.Path i j l ↔ g.Path i j l := by
  have hreached : ∀ {k l}, g.Path i k l → g.FromEntry k := by
    intro k l hpath
    induction hpath with
    | refl => exact hi
    | tail _ adj ih => exact ih.adj adj
  constructor
  · intro hpath
    induction hpath with
    | refl => exact .refl
    | tail _ adj ih => exact ih.tail ((h.adj_iff (hreached ih)).mp adj)
  · intro hpath
    induction hpath with
    | refl => exact .refl
    | tail hpath adj ih => exact ih.tail ((h.adj_iff (hreached hpath)).mpr adj)

theorem fromEntry_iff : g'.FromEntry j ↔ g.FromEntry j := by
  constructor
  · rintro ⟨i, h0, hpath⟩
    induction hpath with
    | refl => exact ⟨i, h0, .refl⟩
    | tail _ adj ih => exact ih.adj ((h.adj_iff ih).mp adj)
  · rintro ⟨i, h0, hpath⟩
    have hentry : g.FromEntry i := ⟨i, h0, .refl⟩
    refine ⟨i, h0, ?_⟩
    induction hpath with
    | refl => exact .refl
    | tail hpath adj ih => exact ih.tail ((h.adj_iff ⟨i, h0, hpath⟩).mpr adj)

theorem isOnCycle_eq (hi : g.FromEntry i) : g'.isOnCycle i = g.isOnCycle i := by
  rw [Bool.eq_iff_iff, isOnCycle_iff, isOnCycle_iff]
  simp only [h.path_iff hi]

/-- Only edges from what is reached make loop heads. -/
theorem isLoopHead_eq (j : Fin n) : g'.isLoopHead j = g.isLoopHead j := by
  obtain ⟨start, h0⟩ : ∃ start : Fin n, start.val = 0 := ⟨⟨0, Nat.zero_lt_of_lt j.isLt⟩, rfl⟩
  have hstart : g.FromEntry start := ⟨start, h0, .refl⟩
  rw [Bool.eq_iff_iff, isLoopHead_iff h0, isLoopHead_iff h0]
  simp only [h.path_iff hstart]
  refine exists_congr fun u => and_congr_left ?_
  rintro ⟨⟨l, hpath⟩, -⟩
  exact h.adj_iff ⟨start, h0, hpath.reflTransGen⟩

end AgreesWith

end Graph

namespace Dataflow

variable {D : Type} {n : Nat} [AbstractDomain D]

namespace Problem

/-- The join of `d` with what `i` sends to `j`. -/
def receive (p : Problem D n) (nodes : Vector (Node D) n) (j : Fin n) (d : D) (i : Fin n) : D :=
  ((p.graph.successors i).filter (·.1 = j)).foldl
    (fun d a => AbstractDomain.join d ((nodes.get i).out a.2)) d

theorem merge_eq_foldl_receive (p : Problem D n) (nodes : Vector (Node D) n) (j : Fin n) :
    p.merge nodes j = (List.finRange n).foldl (p.receive nodes j) (p.initial j) := by
  unfold merge Graph.predecessors
  rw [List.foldl_flatMap]
  congr 1
  funext d i
  unfold receive
  rw [List.foldl_filterMap, List.foldl_filter]
  congr 1
  funext d a
  by_cases ha : a.1 = j <;> simp [ha]

end Problem

/-- Two problems that agree on what is reached. Relations say how far they agree: on merged states,
on those that arrive after widening, and on those that are sent along edges. The transfers only have
to keep them for states that fit. -/
structure Lockstep (p p' : Problem D n) (Fits : Fin n → D → Prop)
    (Merged Arrived Sent : D → D → Prop) : Prop where
  graph : p.graph.AgreesWith p'.graph
  threshold : p'.threshold = p.threshold
  strict : p.Strict
  strict' : p'.Strict
  same_refl : ∀ d : D, AbstractDomain.same d d = true
  entry : Merged p.entry p'.entry
  bottom : Merged p.bottom p'.bottom
  sent_bottom : Sent p.bottom p'.bottom
  join : ∀ {d d' a a'}, Merged d d' → Sent a a' → Merged (AbstractDomain.join d a)
    (AbstractDomain.join d' a')
  join_bottom : ∀ {d d'}, Merged d d' → Merged (AbstractDomain.join d p.bottom) d'
  join_bottom' : ∀ {d d'}, Merged d d' → Merged d (AbstractDomain.join d' p'.bottom)
  arrived : ∀ {d d'}, Merged d d' → Arrived d d'
  widen : ∀ {d d' a a'}, Arrived a a' → Merged d d' → Arrived (AbstractDomain.widen a d)
    (AbstractDomain.widen a' d')
  same : ∀ {a a' b b'}, Sent a a' → Sent b b' → AbstractDomain.same a' b' = AbstractDomain.same a b
  transfer : ∀ {i d d' out}, p.graph.FromEntry i → Fits i d → Arrived d d' →
    p.transfer i d = .ok out →
    ∃ out', p'.transfer i d' = .ok out' ∧ ∀ e, Option.Rel Sent (out.on e) (out'.on e)
  accepts : ∀ {i}, ¬ p.graph.FromEntry i → ∃ out, p'.transfer i p'.bottom = .ok out

namespace Lockstep

/-- As often visited, and related states at the last visit. -/
def HeadsAlike (Arrived : D → D → Prop) (h h' : Head D) : Prop :=
  h'.visits = h.visits ∧ Arrived h.last h'.last

/-- The two iterations are at the same point. -/
structure Alongside (p p' : Problem D n) (Arrived Sent : D → D → Prop) (s s' : Iteration D n) :
    Prop where
  dormant : p.Dormant s
  dormant' : p'.Dormant s'
  incoming : ∀ {i}, p.graph.FromEntry i → Arrived (s.nodes.get i).incoming (s'.nodes.get i).incoming
  out : ∀ {i}, p.graph.FromEntry i → ∀ e, Sent ((s.nodes.get i).out e) ((s'.nodes.get i).out e)
  head : ∀ {i}, p.graph.FromEntry i → Option.Rel (HeadsAlike Arrived)
    (s.heads.get i) (s'.heads.get i)
  pending : ∀ i, s'.pending.get i = s.pending.get i
  steps : s'.steps = s.steps

variable {p p' : Problem D n} {Fits : Fin n → D → Prop} {Merged Arrived Sent : D → D → Prop}
  {s s' : Iteration D n} {i j : Fin n} {out out' : Outflow D}

omit [AbstractDomain D] in
theorem Alongside.next?_eq (hs : Alongside p p' Arrived Sent s s') : s'.next? = s.next? := by
  unfold Iteration.next?
  simp only [hs.pending]

variable (h : Lockstep p p' Fits Merged Arrived Sent)

include h

theorem alongside_start : Alongside p p' Arrived Sent p.start p'.start where
  dormant := p.dormant_start
  dormant' := p'.dormant_start
  incoming _ := by simpa [Problem.start] using h.arrived h.bottom
  out _ e := by cases e <;> simpa [Problem.start, Node.out] using h.sent_bottom
  head {i} _ := by
    rw [Problem.head_start, Problem.head_start, h.graph.isLoopHead_eq]
    split
    · exact .some ⟨rfl, h.arrived h.bottom⟩
    · exact .none
  pending _ := by simp [Problem.start]
  steps := rfl

section Step

variable (hs : Alongside p p' Arrived Sent s s')

include hs

/-- What unreachable instructions send is bottom, along however many edges. -/
theorem receive {d d' : D} (hd : Merged d d') (i j : Fin n) :
    Merged (p.receive s.nodes j d i) (p'.receive s'.nodes j d' i) := by
  unfold Problem.receive
  by_cases hi : p.graph.FromEntry i
  · rw [h.graph i hi]
    exact List.foldl_rel hd fun a _ d d' hd => h.join hd (hs.out hi a.2)
  · have hi' : ¬ p'.graph.FromEntry i := h.graph.fromEntry_iff.not.mpr hi
    have hout : ∀ e, (s.nodes.get i).out e = p.bottom := fun e => by
      rw [hs.dormant.node i hi]
      cases e <;> rfl
    have hout' : ∀ e, (s'.nodes.get i).out e = p'.bottom := fun e => by
      rw [hs.dormant'.node i hi']
      cases e <;> rfl
    simp only [hout, hout']
    -- the edges of `i` may differ, so the two sides are followed one after the other
    refine List.foldlRecOn (motive := (Merged · _)) _ _ ?_ fun _ hd _ _ => h.join_bottom hd
    exact List.foldlRecOn (motive := Merged d) _ _ hd fun _ hd _ _ => h.join_bottom' hd

theorem merge (j : Fin n) : Merged (p.merge s.nodes j) (p'.merge s'.nodes j) := by
  rw [Problem.merge_eq_foldl_receive, Problem.merge_eq_foldl_receive]
  refine List.foldl_rel ?_ fun i _ d d' hd => h.receive hs hd i j
  unfold Problem.initial
  split
  · exact h.entry
  · exact h.bottom

theorem headAt (hi : p.graph.FromEntry i) :
    Option.Rel (HeadsAlike Arrived) (p.headAt s i) (p'.headAt s' i) := by
  unfold Problem.headAt
  have hmerge := h.merge hs i
  have hhead := hs.head hi
  generalize s.heads.get i = a, s'.heads.get i = a' at hhead ⊢
  cases hhead with
  | none => exact .none
  | @some hd hd' hheads =>
    obtain ⟨hvisits, hlast⟩ := hheads
    refine .some ⟨congrArg (· + 1) hvisits, ?_⟩
    have hwidens : hd'.widens p'.threshold = hd.widens p.threshold := by
      unfold Head.widens
      rw [h.threshold, hvisits]
    simp only [Head.visit, hwidens]
    split
    · exact h.widen hlast hmerge
    · exact h.arrived hmerge

theorem arriving (hi : p.graph.FromEntry i) : Arrived (p.arriving s i) (p'.arriving s' i) := by
  unfold Problem.arriving
  have hhead := h.headAt hs hi
  generalize p.headAt s i = a, p'.headAt s' i = a' at hhead ⊢
  cases hhead with
  | none => exact h.arrived (h.merge hs i)
  | some hheads => exact hheads.2

/-- Between related states on an edge, both iterations see a change or neither. -/
theorem changed_eq (hi : p.graph.FromEntry i) {e : Edge} {d d' : Option D}
    (hd : Option.Rel Sent d d') :
    changed ((s'.nodes.get i).out e) d' = changed ((s.nodes.get i).out e) d := by
  cases hd with
  | none => rfl
  | some hd => exact congrArg (!·) (h.same (hs.out hi e) hd)

theorem settle (hi : p.graph.FromEntry i) {e : Edge} {d d' : Option D} (hd : Option.Rel Sent d d') :
    Sent (settle ((s.nodes.get i).out e) d) (settle ((s'.nodes.get i).out e) d') := by
  cases hd with
  | none => exact hs.out hi e
  | some hd =>
    simp only [Dataflow.settle, h.same (hs.out hi e) hd]
    split
    · exact hs.out hi e
    · exact hd

section Update

variable (ho : p.transfer i (p.arriving s i) = .ok out)
    (ho' : p'.transfer i (p'.arriving s' i) = .ok out')
  (hout : p.graph.FromEntry i → ∀ e, Option.Rel Sent (out.on e) (out'.on e))

include ho ho' hout

/-- An unreachable instruction wakes nobody, in either iteration. -/
theorem mem_woken_iff : j ∈ p'.woken s' i out' ↔ j ∈ p.woken s i out := by
  rw [Problem.mem_woken, Problem.mem_woken]
  by_cases hi : p.graph.FromEntry i
  · simp only [h.graph i hi, h.changed_eq hs hi (hout hi _)]
  · have hi' : ¬ p'.graph.FromEntry i := h.graph.fromEntry_iff.not.mpr hi
    have hstill := hs.dormant.not_changed h.strict h.same_refl hi ho
    have hstill' := hs.dormant'.not_changed h.strict' h.same_refl hi' ho'
    simp [hstill, hstill']

theorem alongside_update :
    Alongside p p' Arrived Sent (p.update s i out) (p'.update s' i out') where
  dormant := hs.dormant.update h.strict h.same_refl ho
  dormant' := hs.dormant'.update h.strict' h.same_refl ho'
  incoming {j} hj := by
    by_cases hji : j = i
    · subst hji
      rw [Problem.update_node_self, Problem.update_node_self]
      exact h.arriving hs hj
    · rw [Problem.update_node_of_ne hji, Problem.update_node_of_ne hji]
      exact hs.incoming hj
  out {j} hj e := by
    by_cases hji : j = i
    · subst hji
      rw [Problem.update_node_self, Problem.update_node_self, Problem.nodeAt_out,
        Problem.nodeAt_out]
      exact h.settle hs hj (hout hj e)
    · rw [Problem.update_node_of_ne hji, Problem.update_node_of_ne hji]
      exact hs.out hj e
  head {j} hj := by
    by_cases hji : j = i
    · subst hji
      rw [Problem.update_head_self, Problem.update_head_self]
      exact h.headAt hs hj
    · rw [Problem.update_head_of_ne hji, Problem.update_head_of_ne hji]
      exact hs.head hj
  pending j := by
    rw [Bool.eq_iff_iff, Problem.update_pending, Problem.update_pending, h.mem_woken_iff hs ho ho'
      hout, hs.pending]
  steps := congrArg (· + 1) hs.steps

end Update

/-- What one iteration can do next, the other can do too. -/
theorem exists_transfer (hfits : Fits i (p.arriving s i))
    (ho : p.transfer i (p.arriving s i) = .ok out) :
    ∃ out', p'.transfer i (p'.arriving s' i) = .ok out' ∧
      (p.graph.FromEntry i → ∀ e, Option.Rel Sent (out.on e) (out'.on e)) := by
  by_cases hi : p.graph.FromEntry i
  · obtain ⟨out', ho', hout⟩ := h.transfer hi hfits (h.arriving hs hi) ho
    exact ⟨out', ho', fun _ => hout⟩
  · obtain ⟨out', ho'⟩ := h.accepts hi
    refine ⟨out', ?_, fun hreached => absurd hreached hi⟩
    rw [hs.dormant'.arriving_eq h.strict' (h.graph.fromEntry_iff.not.mpr hi)]
    exact ho'

end Step

omit h in
theorem Alongside.settled {fuel : Nat} {sol : Solution D n} (hs : Alongside p p' Arrived Sent s s')
    (hnext : s.next? = none) (hsol : (p.run fuel s).result = .ok sol) :
    sol = ⟨s.nodes, s.steps⟩ ∧ (p'.run fuel s').result = .ok ⟨s'.nodes, s'.steps⟩ := by
  rw [Problem.run_settled hnext] at hsol
  exact ⟨(Except.ok.inj hsol).symm, Problem.run_settled (hs.next?_eq.trans hnext) fuel⟩

/-- Where one iteration ends the other ends as well, after as many steps. -/
theorem run {fuel : Nat} {sol : Solution D n} (hs : Alongside p p' Arrived Sent s s')
    (hfits : ∀ v ∈ p.visits fuel s, Fits v.index v.incoming)
    (hsol : (p.run fuel s).result = .ok sol) :
    ∃ t t', Alongside p p' Arrived Sent t t' ∧ sol = ⟨t.nodes, t.steps⟩ ∧
      (p'.run fuel s').result = .ok ⟨t'.nodes, t'.steps⟩ := by
  induction fuel generalizing s s' with
  | zero =>
    cases hnext : s.next? with
    | none => exact ⟨s, s', hs, hs.settled hnext hsol⟩
    | some i =>
      rw [Problem.run_exhausted hnext] at hsol
      cases hsol
  | succ fuel ih =>
    cases hnext : s.next? with
    | none => exact ⟨s, s', hs, hs.settled hnext hsol⟩
    | some i =>
      have hnext' : s'.next? = some i := hs.next?_eq.trans hnext
      rw [Problem.run_step hnext] at hsol
      obtain ⟨out, ho, hsol⟩ := Except.bind_eq_ok.mp hsol
      rw [Problem.visits_step hnext ho, List.forall_mem_cons] at hfits
      -- the other iteration is at the same instruction, and it is kept in step by what both produce
      -- there
      obtain ⟨out', ho', hout⟩ := h.exists_transfer (i := i) hs hfits.1 ho
      obtain ⟨t, t', ht, hnodes, hrun⟩ := ih (h.alongside_update hs ho ho' hout) hfits.2 hsol
      refine ⟨t, t', ht, hnodes, ?_⟩
      rw [Problem.run_step hnext', ho']
      exact hrun

end Lockstep

end Dataflow

end Lifespan
