import Lifespan.Proofs.AbstractState
import Lifespan.Proofs.Cycles
import Lifespan.Proofs.Numeric.Transfer
import Lifespan.Proofs.Octagon.Closure
import Lifespan.Proofs.Octagon.Widening
import Mathlib

namespace Lifespan

open Dataflow

namespace Numeric

theorem problem_strict (env : Environment) (r : Resolver) (method : Nat) (b : Body) :
    (problem env r method b).Strict where
  join := rfl
  widen := rfl
  transfer h hs := transfer_empty h hs

/-- If every cycle that control can reach has a loop head on it, the iteration takes no more
than some number of visits. With at least as much fuel it ends, at states or at the error of
a transfer. -/
theorem solve_terminates (env : Environment) (r : Resolver) (method : Nat) (b : Body)
    (h : b.graph.CyclesHeaded) :
    ∃ bound,
      (∀ visits t, (problem env r method b).Visits (problem env r method b).start visits t →
        visits.length ≤ bound) ∧
      ∀ fuel, bound < fuel →
        (∃ sol, ((problem env r method b).solve fuel).result = .ok sol ∧ sol.steps ≤ bound) ∨
        ∃ i s e, (problem env r method b).transfer i s = .error e ∧
          ((problem env r method b).solve fuel).result = .error e := by
  obtain ⟨bound, hbound⟩ := Problem.visits_bounded (p := problem env r method b)
    (Octagon.ranked env.size) rfl (by decide) Octagon.same_refl (problem_strict env r method b) h
  refine ⟨bound, hbound, fun fuel hfuel => ?_⟩
  rcases Problem.run_cases (problem env r method b) fuel (problem env r method b).start with
    ⟨sol, hsol⟩ | herr | ⟨vs, t, hv, hlen⟩
  · exact .inl ⟨sol, hsol, Problem.steps_le_of_solve hbound hsol⟩
  · exact .inr herr
  · have hle := hbound vs t hv
    omega

/-- Two loops, one inside the other, with a product in the inner one. -/
def nestedLoops : Body where
  size := 7
  code :=
    let x : Local := ⟨"x", .int⟩
    let y : Local := ⟨"y", .int⟩
    #v[.assign (.var x) (.int 0),
      .assign (.var y) (.int 1),
      .assign (.var y) (.arith .mul (.var y) (.var x)),
      .branch (.compare .lt (.var y) (.int 5)) ⟨2, by decide⟩,
      .assign (.var x) (.arith .add (.var x) (.int 1)),
      .branch (.compare .lt (.var x) (.int 10)) ⟨1, by decide⟩,
      .returnVoid]
  pos := by decide
  ends := rfl

theorem nestedLoops_cyclesHeaded : nestedLoops.graph.CyclesHeaded := by
  apply Graph.cyclesHeaded_of_forward
  have hhead : ∀ i, nestedLoops.graph.isLoopHead i = decide (i.val = 1 ∨ i.val = 2) :=
    Graph.contains_loopHeads_of_all (by cbv)
  have hall : (List.finRange nestedLoops.size).all (fun i => (nestedLoops.graph.next i).all fun j =>
      decide (i.val = 1 ∨ i.val = 2) || (decide (j.val = 1 ∨ j.val = 2) || decide (i < j))) =
        true := by
    cbv
  intro i j hij
  have hj := List.all_eq_true.mp (List.all_eq_true.mp hall i (List.mem_finRange i)) j hij
  simpa only [hhead, Bool.or_eq_true, decide_eq_true_eq] using hj

/-- Its analysis by itself, without intervals. -/
def nestedProblem : Problem (Octagon 2) 7 :=
  problem (.ofNodup ["x", "y"] (by decide)) (.start fun _ _ => FinMap.empty) 0 nestedLoops

/-- The product has no bound that a loop keeps, and the iteration ends nevertheless. -/
theorem solve_terminates_nestedLoops :
    nestedLoops.graph.CyclesHeaded ∧
    ∃ bound, ∀ fuel, bound < fuel →
      (∃ sol, (nestedProblem.solve fuel).result = .ok sol ∧ sol.steps ≤ bound) ∨
      ∃ i s e, nestedProblem.transfer i s = .error e ∧
      (nestedProblem.solve fuel).result = .error e := by
  refine ⟨nestedLoops_cyclesHeaded, ?_⟩
  obtain ⟨bound, -, h⟩ := solve_terminates (.ofNodup ["x", "y"] (by decide))
    (.start fun _ _ => FinMap.empty) 0 nestedLoops nestedLoops_cyclesHeaded
  exact ⟨bound, h⟩

end Numeric

end Lifespan
