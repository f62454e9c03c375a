import Lifespan.Proofs.Consistency
import Lifespan.Proofs.FinMap
import Mathlib

namespace Lifespan.Dataflow

variable {D : Type} {n : Nat} [AbstractDomain D]

/-- An edge on which no visit produced a state keeps the one it had. -/
theorem Problem.Visits.out_eq {p : Problem D n} {s t : Iteration D n} {vs : List (Visit D n)}
    (h : p.Visits s vs t) {i : Fin n} {e : Edge}
    (hnone : ∀ v ∈ vs, v.index = i → v.out.on e = none) :
    (t.nodes.get i).out e = (s.nodes.get i).out e := by
  induction h with
  | done => rfl
  | @visit s t k out vs _ _ _ ih =>
    rw [ih fun v hv => hnone v (List.mem_cons_of_mem _ hv)]
    by_cases hik : i = k
    · subst hik
      have hout : out.on e = none := hnone _ List.mem_cons_self rfl
      rw [update_node_self, nodeAt_out, hout]
      rfl
    · rw [update_node_of_ne hik]

/-- The states of a finished iteration are a post-fixed point: every instruction transfers what
flows into it to the states stored on its edges, an edge it never produced a state on is as at
the start, and every state is below what it flows into. Without widening, what flows in is
exactly the join. -/
theorem solve_postFixedPoint {le : D → D → Prop} (h : UpperBounds le) (p : Problem D n) (fuel : Nat)
    (sol : Solution D n) (hsol : (p.solve fuel).result = .ok sol) :
    (∀ i, ∃ out, p.transfer i (sol.nodes.get i).incoming = .ok out ∧
      ∀ e d, out.on e = some d → AbstractDomain.same ((sol.nodes.get i).out e) d = true) ∧
    (∃ visits t, p.Visits p.start visits t ∧ t.next? = none ∧ sol = ⟨t.nodes, t.steps⟩ ∧
      ∀ i e, (∀ v ∈ visits, v.index = i → v.out.on e = none) → (sol.nodes.get i).out e = p.bottom) ∧
    (∀ i : Fin n, i.val = 0 → le p.entry (sol.nodes.get i).incoming) ∧
    (∀ i j e, (j, e) ∈ p.graph.successors i →
      le ((sol.nodes.get i).out e) (sol.nodes.get j).incoming) ∧
    (p.threshold = none → ∀ j, (sol.nodes.get j).incoming = p.merge sol.nodes j) := by
  have hset : ∀ j, p.Settled sol.nodes j := Problem.settled_of_solve h.same_refl hsol
  refine ⟨fun i => (hset i).produced, ?_, ?_, ?_, ?_⟩
  · obtain ⟨vs, t, hv, ht, rfl⟩ := Problem.Visits.exists_of_run hsol
    refine ⟨vs, t, hv, ht, rfl, ?_⟩
    intro i e hnone
    rw [hv.out_eq hnone]
    cases e <;> simp [Problem.start, Node.out]
  · intro i hi
    exact h.entry_le_incoming (hset i) hi
  · intro i j e he
    exact h.edge_le_incoming (hset j) he
  · intro hnone j
    rcases (hset j).arrived with heq | ⟨hsome, -⟩
    · exact heq
    · exact absurd hnone hsome

theorem finSet_upperBounds {α : Type} [Ord α] [Std.TransOrd α] [Std.LawfulEqOrd α] [DecidableEq α] :
    UpperBounds fun s t : FinSet α => ∀ a ∈ FinSet.elems s, a ∈ FinSet.elems t where
  refl _ _ ha := ha
  trans hab hbc a ha := hbc a (hab a ha)
  same_refl a := by simp [AbstractDomain.same]
  le_join_left s t a ha := (FinSet.mem_elems_merge _ s t a).mpr (.inl ha)
  le_join_right s t a ha := (FinSet.mem_elems_merge _ s t a).mpr (.inr ha)
  le_widen_left s t a ha := (FinSet.mem_elems_merge _ s t a).mpr (.inl ha)
  le_widen_right s t a ha := (FinSet.mem_elems_merge _ s t a).mpr (.inr ha)

/-- Collects the instructions that control may have passed. -/
def passing (g : Graph n) (threshold : Option Nat) : Problem (FinSet Nat) n where
  graph := g
  bottom := FinMap.empty
  entry := FinMap.empty
  transfer i s := .ok ⟨some (FinMap.insert s i.val ()), some s⟩
  threshold := threshold

/-- Two instructions that loop, and the way out. -/
def twoLoop : Graph 3 := ⟨#v[[(1, .fall)], [(0, .branch), (2, .fall)], []]⟩

/-- A loop whose head is widened from its second visit on: the way out sees all that may come
before it. -/
theorem solve_postFixedPoint_twoLoop :
    ∃ sol, ((passing twoLoop (some 2)).solve 20).result = .ok sol ∧
      ∀ a ∈ FinSet.elems (sol.nodes.get 1).fall, a ∈ FinSet.elems (sol.nodes.get 2).incoming := by
  have hok : ((passing twoLoop (some 2)).solve 20).result.isOk = true := by cbv
  obtain ⟨sol, hsol⟩ := Logged.exists_of_isOk hok
  refine ⟨sol, hsol, ?_⟩
  obtain ⟨-, -, -, hedge, -⟩ := solve_postFixedPoint finSet_upperBounds _ 20 sol hsol
  exact hedge 1 2 .fall (by decide)

end Lifespan.Dataflow
