import Lifespan.Proofs.Iteration
import Lifespan.Proofs.Paths

namespace Lifespan.Dataflow

variable {D : Type} {n : Nat} [AbstractDomain D]

/-- Where only bottom flows in, only bottom comes out. -/
structure Problem.Strict (p : Problem D n) : Prop where
  join : AbstractDomain.join p.bottom p.bottom = p.bottom
  widen : AbstractDomain.widen p.bottom p.bottom = p.bottom
  transfer : ∀ {i out e d}, p.transfer i p.bottom = .ok out → out.on e = some d → d = p.bottom

namespace Problem

variable {p : Problem D n} {s : Iteration D n} {i j : Fin n} {out : Outflow D}

/-- Nothing has reached what no path from the first instruction reaches. -/
structure Dormant (p : Problem D n) (s : Iteration D n) : Prop where
  node : ∀ j, ¬ p.graph.FromEntry j → s.nodes.get j = ⟨p.bottom, p.bottom, p.bottom⟩
  last : ∀ j h, ¬ p.graph.FromEntry j → s.heads.get j = some h → h.last = p.bottom

omit [AbstractDomain D] in
theorem dormant_start (p : Problem D n) : p.Dormant p.start := by
  refine ⟨fun j _ => by simp [start], fun j h _ hh => ?_⟩
  simp only [start, Vector.get_ofFn, Option.ite_none_right_eq_some, Option.some.injEq] at hh
  rw [← hh.2]

theorem Dormant.merge_eq (hp : p.Strict) (h : p.Dormant s) (hj : ¬ p.graph.FromEntry j) :
    p.merge s.nodes j = p.bottom := by
  have hinit : p.initial j = p.bottom := by
    apply if_neg
    intro h0
    exact hj ⟨j, h0, .refl⟩
  refine List.foldlRecOn (motive := (· = p.bottom)) _ _ hinit ?_
  rintro d rfl ⟨i, e⟩ hi
  have hadj : p.graph.Adj i j := Graph.adj_iff.mpr ⟨e, Graph.mem_predecessors.mp hi⟩
  -- no edge comes in from what can be reached, so every state that is joined is bottom
  have hout : (s.nodes.get i).out e = p.bottom := by
    rw [h.node i fun hi => hj (hi.adj hadj)]
    cases e <;> rfl
  dsimp only
  rw [hout, hp.join]

theorem Dormant.arriving_eq (hp : p.Strict) (h : p.Dormant s) (hj : ¬ p.graph.FromEntry j) :
    p.arriving s j = p.bottom := by
  unfold arriving headAt
  rw [h.merge_eq hp hj]
  cases hh : s.heads.get j with
  | none => rfl
  | some hd =>
    have hlast := h.last j hd hj hh
    simp only [Option.map_some, Option.elim_some, Head.visit]
    split
    · rw [hlast, hp.widen]
    · rfl

theorem Dormant.same_of_transfer (hp : p.Strict) (hrefl : ∀ a : D, AbstractDomain.same a a = true)
    (h : p.Dormant s) (hj : ¬ p.graph.FromEntry j) (ho : p.transfer j (p.arriving s j) = .ok out)
    (e : Edge) (d : D) (hout : out.on e = some d) :
    AbstractDomain.same ((s.nodes.get j).out e) d = true := by
  rw [h.arriving_eq hp hj] at ho
  have hnode : (s.nodes.get j).out e = p.bottom := by
    rw [h.node j hj]
    cases e <;> rfl
  rw [hp.transfer ho hout, hnode]
  exact hrefl _

theorem Dormant.not_changed (hp : p.Strict) (hrefl : ∀ a : D, AbstractDomain.same a a = true)
    (h : p.Dormant s) (hj : ¬ p.graph.FromEntry j) (ho : p.transfer j (p.arriving s j) = .ok out)
    (e : Edge) :
    changed ((s.nodes.get j).out e) (out.on e) = false := by
  cases hout : out.on e with
  | none => rfl
  | some d => simp [changed, h.same_of_transfer hp hrefl hj ho e d hout]

theorem Dormant.update (hp : p.Strict) (hrefl : ∀ a : D, AbstractDomain.same a a = true)
    (h : p.Dormant s) (ho : p.transfer i (p.arriving s i) = .ok out) :
    p.Dormant (p.update s i out) := by
  refine ⟨fun j hj => ?_, fun j hd hj hhd => ?_⟩
  · by_cases hji : j = i
    · subst hji
      have hkeep : ∀ e, settle ((s.nodes.get j).out e) (out.on e) = (s.nodes.get j).out e :=
        fun e =>
        settle_of_not_changed (h.not_changed hp hrefl hj ho e)
      have hfall := hkeep .fall
      have hbranch := hkeep .branch
      simp only [Node.out, Outflow.on, h.node j hj] at hfall hbranch
      rw [update_node_self, nodeAt, h.arriving_eq hp hj, h.node j hj, hfall, hbranch]
    · rw [update_node_of_ne hji, h.node j hj]
  · by_cases hji : j = i
    · subst hji
      rw [update_head_self] at hhd
      rw [← arriving_of_headAt hhd, h.arriving_eq hp hj]
    · rw [update_head_of_ne hji] at hhd
      exact h.last j hd hj hhd

end Problem

end Lifespan.Dataflow
