import Lifespan.Proofs.Unreachable
import Mathlib.Algebra.BigOperators.Fin
import Mathlib.Algebra.Order.BigOperators.Group.Finset

namespace Lifespan.Dataflow

variable {D : Type} {n : Nat}

theorem countP_eq_sum_index (P : Visit D n → Bool) (vs : List (Visit D n)) :
    vs.countP P = ∑ i : Fin n, vs.countP fun v => decide (v.index = i) && P v := by
  induction vs with
  | nil => simp
  | cons v vs ih =>
    have hv : (if P v = true then 1 else 0) =
        ∑ i : Fin n, if (decide (v.index = i) && P v) = true then 1 else 0 := by
      cases hp : P v <;> simp
    simp only [List.countP_cons, ih, hv, Finset.sum_add_distrib]

variable [AbstractDomain D]

namespace Problem

variable {p : Problem D n} {s t : Iteration D n} {i j : Fin n} {out : Outflow D}
  {vs : List (Visit D n)}

/-- Visits of `i` that changed the state of an edge. -/
def moveCount (vs : List (Visit D n)) (i : Fin n) : Nat :=
  vs.countP fun v => decide (v.index = i) && v.moves

def visitCount (vs : List (Visit D n)) (i : Fin n) : Nat :=
  vs.countP fun v => decide (v.index = i)

theorem moveCount_le_visitCount (vs : List (Visit D n)) (i : Fin n) :
    moveCount vs i ≤ visitCount vs i := by
  apply List.countP_mono_left
  intro v _ hv
  exact (Bool.and_eq_true_iff.mp hv).1

theorem moveCount_cons_self (v : Visit D n) (vs : List (Visit D n)) :
    moveCount (v :: vs) v.index = moveCount vs v.index + v.moves.toNat := by
  cases hm : v.moves <;> simp [moveCount, hm]

theorem moveCount_cons_of_ne {v : Visit D n} (vs : List (Visit D n)) (h : v.index ≠ i) :
    moveCount (v :: vs) i = moveCount vs i := by
  simp [moveCount, h]

omit [AbstractDomain D] in
theorem length_eq_sum_visitCount (vs : List (Visit D n)) : vs.length = ∑ i, visitCount vs i := by
  have h := countP_eq_sum_index (fun _ => true) vs
  simpa [visitCount] using h

theorem moves_of_mem_woken (h : j ∈ p.woken s i out) :
    (p.visitAt s i out).moves = true ∧ p.graph.Adj i j := by
  obtain ⟨e, he, hc⟩ := mem_woken.mp h
  exact ⟨Visit.moves_of_changed hc, Graph.adj_iff.mpr ⟨e, he⟩⟩

/-- A visit of `i` takes `i` off the worklist and puts there only what its moves wake. -/
theorem pending_update_le (hi : s.pending.get i = true) (out : Outflow D) (j : Fin n) :
    ((p.update s i out).pending.get j).toNat + (if i = j then 1 else 0) ≤ (s.pending.get j).toNat +
      if (decide (p.graph.Adj i j) && (p.visitAt s i out).moves) = true then 1 else 0 := by
  have hle := Bool.toNat_le ((p.update s i out).pending.get j)
  -- what is woken is paid for by the move, also where `i` wakes itself
  by_cases hw : j ∈ p.woken s i out
  · obtain ⟨hm, ha⟩ := moves_of_mem_woken hw
    by_cases hij : i = j
    · subst hij
      simp only [hm, ha, hi, decide_true, Bool.and_self, if_true, Bool.toNat_true]
      omega
    · simp only [hm, ha, hij, decide_true, Bool.and_self, if_true, if_false]
      omega
  · have hpend : (p.update s i out).pending.get j = true → j ≠ i ∧ s.pending.get j = true := by
      intro hp
      exact (update_pending.mp hp).resolve_left hw
    by_cases hij : i = j
    · subst hij
      have hf : (p.update s i out).pending.get i = false := by
        by_contra hc
        exact (hpend (by simpa using hc)).1 rfl
      simp [hf, hi]
    · have hmono : ((p.update s i out).pending.get j).toNat ≤ (s.pending.get j).toNat := by
        cases hp : (p.update s i out).pending.get j with
        | false => simp
        | true => simp [(hpend hp).2]
      simp only [hij, if_false]
      omega

/-- Each visit of `j` but the first follows a move of an instruction before it. -/
theorem Visits.visitCount_le (h : p.Visits s vs t) (j : Fin n) :
    visitCount vs j ≤ (s.pending.get j).toNat +
      vs.countP fun v => decide (p.graph.Adj v.index j) && v.moves := by
  induction h with
  | done s => simp [visitCount]
  | @visit s t i out vs next _ _ ih =>
    have hstep := pending_update_le (p := p) (Iteration.pending_of_next? next) out j
    have hv : visitCount (p.visitAt s i out :: vs) j = visitCount vs j + if i =
        j then 1 else 0 := by
      simp [visitCount, List.countP_cons, visitAt]
    rw [hv, List.countP_cons]
    change _ ≤ _ + (_ + if (decide (p.graph.Adj i j) && (p.visitAt s i out).moves) =
      true then 1 else 0)
    omega

/-- Runs move the edges of `i` a bounded number of times. -/
def MovesBounded (p : Problem D n) (i : Fin n) : Prop :=
  ∃ bound, ∀ vs t, p.Visits p.start vs t → moveCount vs i ≤ bound

theorem visitCount_bounded (h : ∀ i, p.graph.Adj i j → p.MovesBounded i) :
    ∃ bound, ∀ vs t, p.Visits p.start vs t → visitCount vs j ≤ bound := by
  classical
  choose bound hbound using h
  refine ⟨1 + ∑ i : Fin n, if ha : p.graph.Adj i j then bound i ha else 0, ?_⟩
  intro vs t hv
  have hpend : (p.start.pending.get j).toNat ≤ 1 := Bool.toNat_le _
  have hsum : (vs.countP fun v => decide (p.graph.Adj v.index j) && v.moves) ≤
      ∑ i : Fin n, if ha : p.graph.Adj i j then bound i ha else 0 := by
    rw [countP_eq_sum_index]
    apply Finset.sum_le_sum
    intro i _
    split
    case isTrue ha =>
      refine le_trans ?_ (hbound i ha vs t hv)
      apply List.countP_mono_left
      intro v _ hv
      simp only [Bool.and_eq_true, decide_eq_true_eq] at hv ⊢
      exact ⟨hv.1, hv.2.2⟩
    case isFalse ha =>
      rw [Nat.le_zero, List.countP_eq_zero]
      intro v _ hv
      simp only [Bool.and_eq_true, decide_eq_true_eq] at hv
      exact ha (hv.1 ▸ hv.2.1)
  have hle := hv.visitCount_le j
  omega

theorem movesBounded_of_adj (h : ∀ i, p.graph.Adj i j → p.MovesBounded i) : p.MovesBounded j := by
  obtain ⟨bound, hbound⟩ := visitCount_bounded h
  exact ⟨bound, fun vs t hv => (moveCount_le_visitCount vs j).trans (hbound vs t hv)⟩

theorem visits_bounded_of_moves (h : ∀ i, p.MovesBounded i) :
    ∃ bound, ∀ vs t, p.Visits p.start vs t → vs.length ≤ bound := by
  have hj : ∀ j, ∃ bound, ∀ vs t, p.Visits p.start vs t → visitCount vs j ≤ bound :=
    fun j => visitCount_bounded fun i _ => h i
  choose bound hbound using hj
  refine ⟨∑ j, bound j, fun vs t hv => ?_⟩
  rw [length_eq_sum_visitCount]
  exact Finset.sum_le_sum fun j _ => hbound j vs t hv

end Problem

section Heads

/-- A bounded rank that a widening lowers unless it changes nothing. -/
structure Ranked (rank : D → Nat) (top : Nat) : Prop where
  le_top : ∀ a, rank a ≤ top
  widen : ∀ a b : D, AbstractDomain.widen a b = a ∨ rank (AbstractDomain.widen a b) < rank a

/-- Visits until the head is widened come first, then the rank of its state. -/
def Head.potential (rank : D → Nat) (top limit : Nat) (h : Head D) : Nat :=
  (limit - h.visits) * (top + 1) + rank h.last

variable {rank : D → Nat} {top : Nat}

/-- A visit lowers the potential, unless the head is past the limit and its state stays. -/
theorem Ranked.visit_potential (hr : Ranked rank top) (limit : Nat) (h : Head D) (d : D) :
    (h.visit (some limit) d).potential rank top limit < h.potential rank top limit ∨
      limit ≤ h.visits ∧ (h.visit (some limit) d).last = h.last ∧
        (h.visit (some limit) d).potential rank top limit = h.potential rank top limit := by
  have htop := hr.le_top (h.visit (some limit) d).last
  have hvisits : (h.visit (some limit) d).visits = h.visits + 1 := rfl
  by_cases hlim : h.visits < limit
  · left
    -- one visit less outweighs any rank
    have hsplit : limit - h.visits = (limit - (h.visits + 1)) + 1 := by omega
    unfold Head.potential
    rw [hvisits, hsplit, Nat.add_mul, Nat.one_mul]
    omega
  · have hwid : h.widens (some limit) = true := by
      simp only [Head.widens, Option.any_some, decide_eq_true_eq]
      omega
    have hlast : (h.visit (some limit) d).last = AbstractDomain.widen h.last d := by
      simp [Head.visit, hwid]
    have hzero : limit - h.visits = 0 ∧ limit - (h.visits + 1) = 0 := by omega
    unfold Head.potential
    rw [hvisits, hzero.1, hzero.2, hlast]
    rcases hr.widen h.last d with heq | hlt
    · exact .inr ⟨by omega, heq, by rw [heq]⟩
    · exact .inl (by omega)

namespace Problem

variable {p : Problem D n} {s t : Iteration D n} {i j : Fin n} {out : Outflow D}
  {vs : List (Visit D n)}

variable {limit : Nat}

/-- A visited head remembers what flowed in last, and its edges hold what came of it. -/
def Recalls (p : Problem D n) (s : Iteration D n) (i : Fin n) : Prop :=
  ∀ h, s.heads.get i = some h → 0 < h.visits → ∃ out, p.transfer i h.last = .ok out ∧
    ∀ e d, out.on e = some d → AbstractDomain.same ((s.nodes.get i).out e) d = true

theorem recalls_start (p : Problem D n) (i : Fin n) : p.Recalls p.start i := by
  intro h hh hpos
  simp only [start, Vector.get_ofFn, Option.ite_none_right_eq_some, Option.some.injEq] at hh
  obtain ⟨-, rfl⟩ := hh
  cases hpos

theorem Recalls.update (hrefl : ∀ a : D, AbstractDomain.same a a = true) (h : p.Recalls s j)
    (ho : p.transfer i (p.arriving s i) = .ok out) : p.Recalls (p.update s i out) j := by
  intro hd hhd hpos
  by_cases hji : j = i
  · subst hji
    rw [update_head_self] at hhd
    refine ⟨out, ?_, ?_⟩
    · rw [← arriving_of_headAt hhd]
      exact ho
    · intro e d hout
      rw [update_node_self, nodeAt_out, hout]
      exact same_settle hrefl _ d
  · rw [update_head_of_ne hji] at hhd
    rw [update_node_of_ne hji]
    exact h hd hhd hpos

theorem not_moves_of_same
    (h : ∀ e d, out.on e = some d → AbstractDomain.same ((s.nodes.get i).out e) d = true) :
    (p.visitAt s i out).moves = false := by
  have hc : ∀ e, changed ((s.nodes.get i).out e) (out.on e) = false := by
    intro e
    cases hout : out.on e with
    | none => rfl
    | some d => simp [changed, h e d hout]
  exact Bool.or_eq_false_iff.mpr ⟨hc .fall, hc .branch⟩

/-- A visit at which a head moves lowers its potential, and none raises it. -/
theorem Recalls.potential_visit (hr : Ranked rank top) (hlim : p.threshold = some limit)
    (hpos : 0 < limit) (h : p.Recalls s i) {hd : Head D} (hhd : s.heads.get i = some hd)
    (ho : p.transfer i (p.arriving s i) = .ok out) :
    (hd.visit p.threshold (p.merge s.nodes i)).potential rank top limit +
      (p.visitAt s i out).moves.toNat ≤ hd.potential rank top limit := by
  rw [hlim]
  have hle := Bool.toNat_le (p.visitAt s i out).moves
  rcases hr.visit_potential limit hd (p.merge s.nodes i) with hlt | ⟨hvis, hlast, heq⟩
  · omega
  · -- the state is the one that was transferred at the last visit
    obtain ⟨out', ho', hsame⟩ := h hd hhd (by omega)
    have harr : p.arriving s i = hd.last := by
      rw [← hlast, ← hlim]
      apply arriving_of_headAt
      simp [headAt, hhd]
    rw [harr, ho'] at ho
    obtain rfl := Except.ok.inj ho
    rw [not_moves_of_same hsame, heq]
    simp

theorem Visits.moveCount_head_le (hr : Ranked rank top) (hlim : p.threshold = some limit)
    (hpos : 0 < limit) (hrefl : ∀ a : D, AbstractDomain.same a a = true) (h : p.Visits s vs t)
    (hs : p.Recalls s i) {hd : Head D} (hhd : s.heads.get i = some hd) :
    moveCount vs i ≤ hd.potential rank top limit := by
  induction h generalizing hd with
  | done => simp [moveCount]
  | @visit s t k out vs next produced rest ih =>
    by_cases hki : k = i
    · subst hki
      have hvisit := hs.potential_visit hr hlim hpos hhd produced
      have hhd' : (p.update s k out).heads.get k =
          some (hd.visit p.threshold (p.merge s.nodes k)) := by
        simp [update_head_self, headAt, hhd]
      have hrest := ih (hs.update hrefl produced) hhd'
      have hcount := moveCount_cons_self (p.visitAt s k out) vs
      change moveCount _ k = moveCount vs k + _ at hcount
      omega
    · have hcount := moveCount_cons_of_ne (v := p.visitAt s k out) vs hki
      rw [hcount]
      exact ih (hs.update hrefl produced) (by rw [update_head_of_ne (Ne.symm hki), hhd])

theorem movesBounded_head (hr : Ranked rank top) (hlim : p.threshold = some limit)
    (hpos : 0 < limit) (hrefl : ∀ a : D, AbstractDomain.same a a = true)
    (hi : p.graph.isLoopHead i = true) :
    p.MovesBounded i := by
  refine ⟨(⟨0, p.bottom⟩ : Head D).potential rank top limit, fun vs t hv => ?_⟩
  exact hv.moveCount_head_le hr hlim hpos hrefl (p.recalls_start i) (by simp [head_start, hi])

end Problem

end Heads

namespace Problem

variable {p : Problem D n} {s t : Iteration D n} {i j : Fin n} {out : Outflow D}
  {vs : List (Visit D n)}

theorem Visits.moveCount_unreachable (hp : p.Strict)
    (hrefl : ∀ a : D, AbstractDomain.same a a = true) (h : p.Visits s vs t) (hs : p.Dormant s)
    (hi : ¬ p.graph.FromEntry i) : moveCount vs i = 0 := by
  induction h with
  | done => rfl
  | @visit s t k out vs next produced rest ih =>
    have hrest := ih (hs.update hp hrefl produced)
    by_cases hki : k = i
    · subst hki
      have hcount := moveCount_cons_self (p.visitAt s k out) vs
      rw [not_moves_of_same (hs.same_of_transfer hp hrefl hi produced)] at hcount
      change moveCount _ k = moveCount vs k + 0 at hcount
      omega
    · rw [moveCount_cons_of_ne (v := p.visitAt s k out) vs hki]
      exact hrest

theorem movesBounded_unreachable (hp : p.Strict) (hrefl : ∀ a : D, AbstractDomain.same a a = true)
    (hi : ¬ p.graph.FromEntry i) : p.MovesBounded i :=
  ⟨0, fun _ _ hv => (hv.moveCount_unreachable hp hrefl p.dormant_start hi).le⟩

/-- If loop heads have a rank to lose and stand on every cycle, all runs are bounded. -/
theorem visits_bounded {rank : D → Nat} {top limit : Nat} (hr : Ranked rank top)
    (hlim : p.threshold = some limit) (hpos : 0 < limit)
    (hrefl : ∀ a : D, AbstractDomain.same a a = true) (hp : p.Strict)
    (hcycles : p.graph.CyclesHeaded) :
    ∃ bound, ∀ vs t, p.Visits p.start vs t → vs.length ≤ bound := by
  apply visits_bounded_of_moves
  intro i
  -- between reachable instructions that are no heads, edges are well-founded
  induction i using hcycles.wellFounded.induction with
  | _ j ih =>
    by_cases hreach : p.graph.FromEntry j
    · by_cases hhead : p.graph.isLoopHead j = true
      · exact movesBounded_head hr hlim hpos hrefl hhead
      · apply movesBounded_of_adj
        intro i hij
        by_cases hi : p.graph.FromEntry i
        · by_cases hihead : p.graph.isLoopHead i = true
          · exact movesBounded_head hr hlim hpos hrefl hihead
          · exact ih i ⟨hij, ⟨hi, by simpa using hihead⟩, hreach, by simpa using hhead⟩
        · exact movesBounded_unreachable hp hrefl hi
    · exact movesBounded_unreachable hp hrefl hreach

/-- A run ends with states or the error of a transfer, unless it used up all its fuel. -/
theorem run_cases (p : Problem D n) (fuel : Nat) (s : Iteration D n) :
    (∃ sol, (p.run fuel s).result = .ok sol) ∨
    (∃ i d e, p.transfer i d = .error e ∧ (p.run fuel s).result = .error e) ∨
    ∃ vs t, p.Visits s vs t ∧ vs.length = fuel := by
  induction fuel generalizing s with
  | zero => exact .inr (.inr ⟨[], s, .done s, rfl⟩)
  | succ fuel ih =>
    cases hn : s.next? with
    | none => exact .inl ⟨_, run_settled hn _⟩
    | some i =>
      rw [run_step hn]
      cases ho : p.transfer i (p.arriving s i) with
      | error e => exact .inr (.inl ⟨i, _, e, ho, rfl⟩)
      | ok out =>
        rcases ih (p.update s i out) with hok | herr | ⟨vs, t, hv, hlen⟩
        · exact .inl hok
        · exact .inr (.inl herr)
        · exact .inr (.inr ⟨_, t, .visit hn ho hv, by rw [List.length_cons, hlen]⟩)

theorem steps_le_of_solve {bound fuel : Nat} {sol : Solution D n}
    (hbound : ∀ vs t, p.Visits p.start vs t → vs.length ≤ bound)
    (h : (p.solve fuel).result = .ok sol) : sol.steps ≤ bound := by
  obtain ⟨vs, t, hv, -, rfl⟩ := Visits.exists_of_run h
  have hsteps := hv.steps_eq
  have hlen := hbound vs t hv
  simp only [start] at hsteps
  change t.steps ≤ bound
  omega

end Problem

end Lifespan.Dataflow
