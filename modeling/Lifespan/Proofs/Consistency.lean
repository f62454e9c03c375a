import Lifespan.Proofs.Iteration

namespace Lifespan.Dataflow

variable {D : Type} {n : Nat} [AbstractDomain D]

/-- An order in which join and widening bound both of their arguments, and a reflexive `same`. -/
structure UpperBounds (le : D → D → Prop) : Prop where
  refl : ∀ a, le a a
  trans : ∀ {a b c}, le a b → le b c → le a c
  same_refl : ∀ a : D, AbstractDomain.same a a = true
  le_join_left : ∀ a b, le a (AbstractDomain.join a b)
  le_join_right : ∀ a b, le b (AbstractDomain.join a b)
  le_widen_left : ∀ a b, le a (AbstractDomain.widen a b)
  le_widen_right : ∀ a b, le b (AbstractDomain.widen a b)

namespace UpperBounds

variable {le : D → D → Prop}

theorem le_foldl_join (h : UpperBounds le) {α : Type} (f : α → D) (d : D) (l : List α) :
    le d (l.foldl (fun d a => AbstractDomain.join d (f a)) d) :=
  List.foldlRecOn (motive := le d) l _ (h.refl d) fun b hb a _ =>
    h.trans hb (h.le_join_left b (f a))

theorem le_foldl_join_of_mem (h : UpperBounds le) {α : Type} (f : α → D) (d : D) {l : List α}
    {a : α} (ha : a ∈ l) : le (f a) (l.foldl (fun d a => AbstractDomain.join d (f a)) d) := by
  induction l generalizing d with
  | nil => cases ha
  | cons b l ih =>
    rcases List.mem_cons.mp ha with rfl | ha
    · exact h.trans (h.le_join_right d (f a)) (h.le_foldl_join f _ l)
    · exact ih _ ha

theorem initial_le_merge (h : UpperBounds le) (p : Problem D n)
    (nodes : Vector (Node D) n) (i : Fin n) :
    le (p.initial i) (p.merge nodes i) :=
  h.le_foldl_join (fun x : Fin n × Edge => (nodes.get x.1).out x.2) _ _

theorem edge_le_merge (h : UpperBounds le) (p : Problem D n) (nodes : Vector (Node D) n)
    {i j : Fin n} {e : Edge} (he : (j, e) ∈ p.graph.successors i) :
    le ((nodes.get i).out e) (p.merge nodes j) :=
  h.le_foldl_join_of_mem (fun x : Fin n × Edge => (nodes.get x.1).out x.2) _
    (Graph.mem_predecessors.mpr he)

end UpperBounds

namespace Problem

variable {p : Problem D n} {s t : Iteration D n} {i j : Fin n} {out : Outflow D}
  {vs : List (Visit D n)}

/-- The states of `j` fit those around it: what flows in is merged or widened from the edges into
`j`, and what is stored on its edges is what its transfer makes of that. -/
structure Settled (p : Problem D n) (nodes : Vector (Node D) n) (j : Fin n) : Prop where
  arrived : (nodes.get j).incoming = p.merge nodes j ∨
    p.threshold ≠ none ∧ ∃ last, (nodes.get j).incoming = AbstractDomain.widen last
      (p.merge nodes j)
  produced : ∃ out, p.transfer j (nodes.get j).incoming = .ok out ∧
    ∀ e d, out.on e = some d → AbstractDomain.same ((nodes.get j).out e) d = true

/-- Whatever is not pending is settled. -/
def Consistent (p : Problem D n) (s : Iteration D n) : Prop :=
  ∀ j, s.pending.get j = false → p.Settled s.nodes j

/-- Not pending after a visit means not woken by it, and not pending before unless it
was visited. -/
theorem of_not_pending_update (h : (p.update s i out).pending.get j = false) :
    j ∉ p.woken s i out ∧ (j ≠ i → s.pending.get j = false) := by
  have hp : ¬ (j ∈ p.woken s i out ∨ j ≠ i ∧ s.pending.get j = true) := by
    rw [← update_pending, h]
    simp
  obtain ⟨hwoken, hother⟩ := not_or.mp hp
  exact ⟨hwoken, fun hji => by simpa [hji] using hother⟩

theorem consistent_start (p : Problem D n) : p.Consistent p.start := by
  intro j hj
  simp [start] at hj

theorem settled_visited (hrefl : ∀ a : D, AbstractDomain.same a a = true)
    (ho : p.transfer i (p.arriving s i) = .ok out) (hw : i ∉ p.woken s i out) :
    p.Settled (p.update s i out).nodes i := by
  refine ⟨?_, out, ?_, ?_⟩
  · rw [merge_update_of_not_woken hw, update_node_self]
    exact arriving_cases p s i
  · rw [update_node_self]
    exact ho
  · intro e d hd
    rw [update_node_self, nodeAt_out, hd]
    exact same_settle hrefl _ d

theorem Settled.update (h : p.Settled s.nodes j) (hji : j ≠ i) (hw : j ∉ p.woken s i out) :
    p.Settled (p.update s i out).nodes j := by
  have hnode : (p.update s i out).nodes.get j = s.nodes.get j := update_node_of_ne hji
  refine ⟨?_, ?_⟩
  · rw [merge_update_of_not_woken hw, hnode]
    exact h.arrived
  · rw [hnode]
    exact h.produced

theorem Consistent.update (hrefl : ∀ a : D, AbstractDomain.same a a = true)
    (h : p.Consistent s) (ho : p.transfer i (p.arriving s i) = .ok out) :
    p.Consistent (p.update s i out) := by
  intro j hj
  obtain ⟨hw, hbefore⟩ := of_not_pending_update hj
  by_cases hji : j = i
  · subst hji
    exact settled_visited hrefl ho hw
  · exact (h j (hbefore hji)).update hji hw

theorem Visits.consistent (hrefl : ∀ a : D, AbstractDomain.same a a = true)
    (h : p.Visits s vs t) (hs : p.Consistent s) : p.Consistent t :=
  h.preserves (fun _ _ _ _ ho hs => Consistent.update hrefl hs ho) hs

theorem settled_of_solve (hrefl : ∀ a : D, AbstractDomain.same a a = true) {fuel : Nat}
    {sol : Solution D n} (h : (p.solve fuel).result = .ok sol) (j : Fin n) :
    p.Settled sol.nodes j := by
  obtain ⟨vs, t, hv, ht, rfl⟩ := Visits.exists_of_run h
  exact hv.consistent hrefl p.consistent_start j (Iteration.not_pending_of_next? ht j)

/-- No state of `j` is widened, and if `j` is not pending then what flows in is what was merged. -/
structure Unwidened (p : Problem D n) (j : Fin n) (s : Iteration D n) : Prop where
  head : s.heads.get j = none
  incoming : s.pending.get j = false → (s.nodes.get j).incoming = p.merge s.nodes j

theorem Unwidened.update (h : p.Unwidened j s) (i : Fin n) (out : Outflow D) :
    p.Unwidened j (p.update s i out) := by
  by_cases hji : j = i
  · subst hji
    have hhead : p.headAt s j = none := by rw [headAt, h.head, Option.map_none]
    refine ⟨update_head_self.trans hhead, fun hj => ?_⟩
    rw [update_node_self, merge_update_of_not_woken (of_not_pending_update hj).1]
    change p.arriving s j = _
    rw [arriving, hhead]
    rfl
  · refine ⟨(update_head_of_ne hji).trans h.head, fun hj => ?_⟩
    obtain ⟨hwoken, hbefore⟩ := of_not_pending_update hj
    rw [update_node_of_ne hji, merge_update_of_not_woken hwoken]
    exact h.incoming (hbefore hji)

/-- What flows into an instruction that is no loop head is the join of what comes in. -/
theorem incoming_of_solve {fuel : Nat} {sol : Solution D n} (h : (p.solve fuel).result = .ok sol)
    (hhead : p.graph.isLoopHead j = false) : (sol.nodes.get j).incoming = p.merge sol.nodes j := by
  obtain ⟨vs, t, hv, ht, rfl⟩ := Visits.exists_of_run h
  have hstart : p.Unwidened j p.start :=
    ⟨by simp [head_start, hhead], fun hj => by simp [start] at hj⟩
  have hend : p.Unwidened j t := hv.preserves (fun _ i out _ _ hs => hs.update i out) hstart
  exact hend.incoming (Iteration.not_pending_of_next? ht j)

end Problem

theorem UpperBounds.merge_le_incoming {le : D → D → Prop} (h : UpperBounds le) {p : Problem D n}
    {nodes : Vector (Node D) n} {j : Fin n} (hj : p.Settled nodes j) :
    le (p.merge nodes j) (nodes.get j).incoming := by
  rcases hj.arrived with heq | ⟨-, last, heq⟩
  · rw [heq]
    exact h.refl _
  · rw [heq]
    exact h.le_widen_right last _

theorem UpperBounds.entry_le_incoming {le : D → D → Prop} (h : UpperBounds le) {p : Problem D n}
    {nodes : Vector (Node D) n} {j : Fin n} (hj : p.Settled nodes j) (h0 : j.val = 0) :
    le p.entry (nodes.get j).incoming := by
  have hinit : p.initial j = p.entry := if_pos h0
  rw [← hinit]
  exact h.trans (h.initial_le_merge p nodes j) (h.merge_le_incoming hj)

theorem UpperBounds.edge_le_incoming {le : D → D → Prop} (h : UpperBounds le) {p : Problem D n}
    {nodes : Vector (Node D) n} {i j : Fin n} {e : Edge} (hj : p.Settled nodes j)
    (he : (j, e) ∈ p.graph.successors i) : le ((nodes.get i).out e) (nodes.get j).incoming :=
  h.trans (h.edge_le_merge p nodes he) (h.merge_le_incoming hj)

end Lifespan.Dataflow
