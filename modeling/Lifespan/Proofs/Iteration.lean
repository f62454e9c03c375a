import Lifespan.Dataflow
import Lifespan.Proofs.Logged
import Lifespan.Proofs.Vector
import Mathlib.Data.List.Basic

namespace Lifespan

namespace Graph

variable {n : Nat}

theorem mem_predecessors {g : Graph n} {i j : Fin n} {e : Edge} :
    (i, e) ∈ g.predecessors j ↔ (j, e) ∈ g.successors i := by
  simp only [predecessors, List.mem_flatMap, List.mem_filterMap, List.mem_finRange, true_and]
  constructor
  · rintro ⟨k, ⟨l, f⟩, hl, h⟩
    simp only [Option.ite_none_right_eq_some, Option.some.injEq, Prod.mk.injEq] at h
    obtain ⟨rfl, rfl, rfl⟩ := h
    exact hl
  · intro h
    exact ⟨i, (j, e), h, by simp⟩

end Graph

namespace Dataflow

variable {D : Type} {n : Nat}

theorem Iteration.pending_of_next? {s : Iteration D n} {i : Fin n} (h : s.next? = some i) :
    s.pending.get i = true := by
  simpa using List.find?_some h

theorem Iteration.not_pending_of_next? {s : Iteration D n} (h : s.next? = none) (i : Fin n) :
    s.pending.get i = false := by
  simpa using List.find?_eq_none.mp h i (List.mem_finRange i)

theorem Problem.head_start (p : Problem D n) (i : Fin n) :
    p.start.heads.get i = if p.graph.isLoopHead i then some ⟨0, p.bottom⟩ else none :=
  Vector.get_ofFn _ i

variable [AbstractDomain D]

theorem settle_of_not_changed {old : D} {out : Option D} (h : changed old out = false) :
    settle old out = old := by
  cases out with
  | none => rfl
  | some new => simp_all [changed, settle]

theorem same_settle (hrefl : ∀ a : D, AbstractDomain.same a a = true) (old new : D) :
    AbstractDomain.same (settle old (some new)) new = true := by
  simp only [settle]
  split
  · assumption
  · exact hrefl new

namespace Problem

variable (p : Problem D n)

/-- The head of `i`, if it is one, after it is recomputed. -/
def headAt (s : Iteration D n) (i : Fin n) : Option (Head D) :=
  (s.heads.get i).map fun h => h.visit p.threshold (p.merge s.nodes i)

/-- What flows into `i` when it is recomputed. -/
def arriving (s : Iteration D n) (i : Fin n) : D :=
  (p.headAt s i).elim (p.merge s.nodes i) Head.last

/-- The node of `i` after it is recomputed. -/
def nodeAt (s : Iteration D n) (i : Fin n) (out : Outflow D) : Node D :=
  ⟨p.arriving s i, settle (s.nodes.get i).fall out.fall, settle (s.nodes.get i).branch out.branch⟩

def woken (s : Iteration D n) (i : Fin n) (out : Outflow D) : List (Fin n) :=
  p.wakes i fun e => changed ((s.nodes.get i).out e) (out.on e)

/-- The iteration after `i` was recomputed and produced `out`. -/
def update (s : Iteration D n) (i : Fin n) (out : Outflow D) : Iteration D n where
  nodes := s.nodes.set i (p.nodeAt s i out) i.isLt
  heads := s.heads.set i (p.headAt s i) i.isLt
  pending := Vector.ofFn fun j => (p.woken s i out).contains j || (j != i && s.pending.get j)
  steps := s.steps + 1

theorem step_eq (s : Iteration D n) (i : Fin n) :
    p.step s i = (p.transfer i (p.arriving s i)).map (p.update s i) := by
  change (p.transfer i (p.arriving s i)).bind _ = _
  cases p.transfer i (p.arriving s i) <;> rfl

variable {p} {s : Iteration D n} {i j : Fin n} {out : Outflow D}

theorem nodeAt_out (e : Edge) :
    (p.nodeAt s i out).out e = settle ((s.nodes.get i).out e) (out.on e) := by
  cases e <;> rfl

theorem update_node_self : (p.update s i out).nodes.get i = p.nodeAt s i out := by
  simp [update]

theorem update_node_of_ne (h : j ≠ i) : (p.update s i out).nodes.get j = s.nodes.get j := by
  simp [update, Vector.get_set_of_ne _ _ h]

theorem update_head_self : (p.update s i out).heads.get i = p.headAt s i := by
  simp [update]

theorem update_head_of_ne (h : j ≠ i) : (p.update s i out).heads.get j = s.heads.get j := by
  simp [update, Vector.get_set_of_ne _ _ h]

theorem arriving_of_headAt {h : Head D} (hh : p.headAt s i = some h) : p.arriving s i = h.last := by
  simp [arriving, hh]

theorem update_pending :
    (p.update s i out).pending.get j = true ↔
      j ∈ p.woken s i out ∨ j ≠ i ∧ s.pending.get j = true := by
  simp [update]

theorem mem_woken :
    j ∈ p.woken s i out ↔
      ∃ e, (j, e) ∈ p.graph.successors i ∧ changed ((s.nodes.get i).out e) (out.on e) = true := by
  simp [woken, wakes]

/-- The edges into an instruction that is not woken keep their states. -/
theorem update_out_of_not_woken (h : j ∉ p.woken s i out) {k : Fin n} {e : Edge}
    (hk : (k, e) ∈ p.graph.predecessors j) :
    ((p.update s i out).nodes.get k).out e = (s.nodes.get k).out e := by
  by_cases hki : k = i
  · subst hki
    rw [update_node_self, nodeAt_out]
    apply settle_of_not_changed
    by_contra hc
    exact h (mem_woken.mpr ⟨e, Graph.mem_predecessors.mp hk, by simpa using hc⟩)
  · rw [update_node_of_ne hki]

theorem merge_update_of_not_woken (h : j ∉ p.woken s i out) :
    p.merge (p.update s i out).nodes j = p.merge s.nodes j := by
  apply List.foldl_ext
  rintro d ⟨k, e⟩ hk
  simp only [update_out_of_not_woken h hk]

/-- What arrives is what flows in, or at a loop head its widening. -/
theorem arriving_cases (p : Problem D n) (s : Iteration D n) (i : Fin n) :
    p.arriving s i = p.merge s.nodes i ∨
      p.threshold ≠ none ∧ ∃ last, p.arriving s i = AbstractDomain.widen last
      (p.merge s.nodes i) := by
  unfold arriving headAt
  cases s.heads.get i with
  | none => exact .inl rfl
  | some h =>
    by_cases hw : h.widens p.threshold = true
    · refine .inr ⟨?_, h.last, by simp [Head.visit, hw]⟩
      intro ht
      simp [Head.widens, ht] at hw
    · exact .inl (by simp [Head.visit, hw])

end Problem

/-- One recomputation: the instruction, its node so far, what flowed in and what it produced. -/
structure Visit (D : Type) (n : Nat) where
  index : Fin n
  before : Node D
  incoming : D
  out : Outflow D

/-- Whether a visit changed the state of an edge. -/
def Visit.moves (v : Visit D n) : Bool :=
  changed v.before.fall v.out.fall || changed v.before.branch v.out.branch

theorem Visit.moves_of_changed {v : Visit D n} {e : Edge}
    (h : changed (v.before.out e) (v.out.on e) = true) : v.moves = true := by
  cases e with
  | fall => exact Bool.or_eq_true_iff.mpr (.inl h)
  | branch => exact Bool.or_eq_true_iff.mpr (.inr h)

namespace Problem

/-- The visit of `i` that produces `out`. -/
def visitAt (p : Problem D n) (s : Iteration D n) (i : Fin n) (out : Outflow D) : Visit D n :=
  ⟨i, s.nodes.get i, p.arriving s i, out⟩

/-- The iteration gets from one state to another by a list of visits. -/
inductive Visits (p : Problem D n) : Iteration D n → List (Visit D n) → Iteration D n → Prop
  | done (s : Iteration D n) : Visits p s [] s
  | visit {s t : Iteration D n} {i : Fin n} {out : Outflow D} {vs : List (Visit D n)}
      (next : s.next? = some i) (produced : p.transfer i (p.arriving s i) = .ok out)
      (rest : Visits p (p.update s i out) vs t) : Visits p s (p.visitAt s i out :: vs) t

variable {p : Problem D n} {s t : Iteration D n} {i j : Fin n} {out : Outflow D}
  {vs : List (Visit D n)}

/-- What a visit keeps, a run keeps. -/
theorem Visits.preserves {P : Iteration D n → Prop}
    (hstep : ∀ s i out, s.next? = some i → p.transfer i (p.arriving s i) = .ok out →
      P s → P (p.update s i out))
    (h : p.Visits s vs t) (hs : P s) : P t := by
  induction h with
  | done => exact hs
  | visit next produced _ ih => exact ih (hstep _ _ _ next produced hs)

theorem Visits.steps_eq (h : p.Visits s vs t) : t.steps = s.steps + vs.length := by
  induction h with
  | done => rfl
  | visit _ _ _ ih =>
    rw [ih, List.length_cons]
    simp only [update]
    omega

theorem run_settled (h : s.next? = none) (fuel : Nat) :
    (p.run fuel s).result = .ok ⟨s.nodes, s.steps⟩ := by
  rw [run.eq_def]
  simp [h]

theorem run_exhausted (h : s.next? = some i) :
    (p.run 0 s).result = .error (.invariant (.unsettled s.steps)) := by
  rw [run.eq_def]
  simp [h]

theorem run_step (h : s.next? = some i) (fuel : Nat) :
    (p.run (fuel + 1) s).result =
      (p.transfer i (p.arriving s i)).bind fun out => (p.run fuel (p.update s i out)).result := by
  have hw : ((p.widening? s i).forM Logged.report).result = .ok () := by
    cases p.widening? s i <;> rfl
  rw [run.eq_def]
  simp only [h, Logged.result_bind, hw, step_eq]
  cases p.transfer i (p.arriving s i) <;> rfl

/-- The visits of an iteration, for at most `fuel` steps. -/
def visits (p : Problem D n) : Nat → Iteration D n → List (Visit D n)
  | 0, _ => []
  | fuel + 1, s =>
    match s.next? with
    | none => []
    | some i =>
      match p.transfer i (p.arriving s i) with
      | .error _ => []
      | .ok out => p.visitAt s i out :: p.visits fuel (p.update s i out)

theorem visits_settled (h : s.next? = none) (fuel : Nat) : p.visits fuel s = [] := by
  cases fuel with
  | zero => rfl
  | succ fuel => simp only [visits, h]

theorem visits_step (h : s.next? = some i) (ho : p.transfer i (p.arriving s i) = .ok out)
    (fuel : Nat) :
    p.visits (fuel + 1) s = p.visitAt s i out :: p.visits fuel (p.update s i out) := by
  simp only [visits, h, ho]

/-- They lead to where the iteration ends. -/
theorem visits_of_run {fuel : Nat} {sol : Solution D n} (h : (p.run fuel s).result = .ok sol) :
    ∃ t, p.Visits s (p.visits fuel s) t ∧ t.next? = none ∧ sol = ⟨t.nodes, t.steps⟩ := by
  have hsettled {fuel : Nat} {s : Iteration D n} (hn : s.next? = none)
      (h : (p.run fuel s).result = .ok sol) :
      ∃ t, p.Visits s (p.visits fuel s) t ∧ t.next? = none ∧ sol = ⟨t.nodes, t.steps⟩ := by
    rw [run_settled hn] at h
    exact ⟨s, visits_settled hn fuel ▸ .done s, hn, (Except.ok.inj h).symm⟩
  induction fuel generalizing s with
  | zero =>
    cases hn : s.next? with
    | none => exact hsettled hn h
    | some i => simp [run_exhausted hn] at h
  | succ fuel ih =>
    cases hn : s.next? with
    | none => exact hsettled hn h
    | some i =>
      rw [run_step hn] at h
      obtain ⟨out, ho, h⟩ := Except.bind_eq_ok.mp h
      obtain ⟨t, ht, hend⟩ := ih h
      exact ⟨t, visits_step hn ho fuel ▸ .visit hn ho ht, hend⟩

theorem Visits.exists_of_run {fuel : Nat} {sol : Solution D n}
    (h : (p.run fuel s).result = .ok sol) :
    ∃ vs t, p.Visits s vs t ∧ t.next? = none ∧ sol = ⟨t.nodes, t.steps⟩ :=
  ⟨_, visits_of_run h⟩

end Problem

end Dataflow

end Lifespan
