import Lifespan.Proofs.Settling

namespace Lifespan.Dataflow

variable {D α : Type} {n : Nat} [AbstractDomain D]

/-- A transfer that cannot fail lets the iteration end if its runs are no longer than the fuel. -/
theorem Problem.run_ok {p : Problem D n} (htransfer : ∀ i d, ∃ out, p.transfer i d = .ok out)
    {fuel : Nat} {s : Iteration D n} (h : ∀ vs t, p.Visits s vs t → vs.length ≤ fuel) :
    ∃ sol, (p.run fuel s).result = .ok sol := by
  induction fuel generalizing s with
  | zero =>
    cases hn : s.next? with
    | none => exact ⟨_, run_settled hn _⟩
    | some i =>
      obtain ⟨out, ho⟩ := htransfer i (p.arriving s i)
      have hlen := h _ _ (.visit hn ho (.done _))
      simp at hlen
  | succ fuel ih =>
    cases hn : s.next? with
    | none => exact ⟨_, run_settled hn _⟩
    | some i =>
      obtain ⟨out, ho⟩ := htransfer i (p.arriving s i)
      have hrest : ∀ vs t, p.Visits (p.update s i out) vs t → vs.length ≤ fuel := by
        intro vs t hv
        have hlen := h _ _ (.visit hn ho hv)
        simpa using hlen
      obtain ⟨sol, hsol⟩ := ih hrest
      refine ⟨sol, ?_⟩
      rw [run_step hn, ho]
      exact hsol

variable [DecidableEq α]

/-- The states of `p` collect facts from `all`; `step` is what an instruction makes of a state. -/
structure Collects (p : Problem D n) (facts : D → Finset α) (all : Finset α)
    (step : Fin n → D → D) :
    Prop where
  transfer : ∀ i d, p.transfer i d = .ok (.uniform (step i d))
  threshold : p.threshold = none
  same : ∀ a b : D, AbstractDomain.same a b = true ↔ facts a = facts b
  join : ∀ a b, facts (AbstractDomain.join a b) = facts a ∪ facts b
  bottom : facts p.bottom = ∅
  entry : facts p.entry ⊆ all
  mono : ∀ i a b, facts a ⊆ facts b → facts (step i a) ⊆ facts (step i b)
  step : ∀ i d, facts d ⊆ all → facts (step i d) ⊆ all

namespace Collects

variable {p : Problem D n} {facts : D → Finset α} {all : Finset α} {step : Fin n → D → D}
  {s t : Iteration D n} {i j : Fin n} {out : Outflow D} {vs : List (Visit D n)}

theorem mem_foldl_join (h : Collects p facts all step) {β : Type} (f : β → D) (d : D)
    (l : List β) {x : α} :
    x ∈ facts (l.foldl (fun d b => AbstractDomain.join d (f b)) d) ↔
      x ∈ facts d ∨ ∃ b ∈ l, x ∈ facts (f b) := by
  induction l generalizing d with
  | nil => simp
  | cons b l ih =>
    rw [List.foldl_cons, ih, h.join]
    simp [or_assoc]

/-- What flows into an instruction flows in at first or along an edge. -/
theorem mem_merge (h : Collects p facts all step) (nodes : Vector (Node D) n) (i : Fin n) {x : α} :
    x ∈ facts (p.merge nodes i) ↔
      x ∈ facts (p.initial i) ∨ ∃ j e, (i, e) ∈ p.graph.successors j ∧
      x ∈ facts ((nodes.get j).out e) := by
  have hfold := h.mem_foldl_join (fun b : Fin n × Edge => (nodes.get b.1).out b.2) (p.initial i)
    (p.graph.predecessors i) (x := x)
  change x ∈ facts (p.merge nodes i) ↔ _ at hfold
  simp only [hfold, Prod.exists, Graph.mem_predecessors]

theorem arriving_eq (h : Collects p facts all step) (s : Iteration D n) (i : Fin n) :
    p.arriving s i = p.merge s.nodes i := by
  rcases p.arriving_cases s i with heq | ⟨hne, -⟩
  · exact heq
  · exact absurd h.threshold hne

theorem facts_settle (h : Collects p facts all step) (old new : D) :
    facts (settle old (some new)) = facts new := by
  simp only [settle]
  split
  case isTrue hsame =>
    exact (h.same old new).mp hsame
  case isFalse => rfl

/-- What is stored on edges is the same on both, comes from `all`, and is still produced. -/
structure Rising (p : Problem D n) (facts : D → Finset α) (all : Finset α) (step : Fin n → D → D)
    (s : Iteration D n) : Prop where
  level : ∀ i e, facts ((s.nodes.get i).out e) = facts (s.nodes.get i).fall
  within : ∀ i, facts (s.nodes.get i).fall ⊆ all
  produced : ∀ i, facts (s.nodes.get i).fall ⊆ facts (step i (p.merge s.nodes i))

theorem rising_start (h : Collects p facts all step) : Rising p facts all step p.start where
  level i e := by
    cases e <;> simp [Problem.start, Node.out]
  within i := by simp [Problem.start, h.bottom]
  produced i := by simp [Problem.start, h.bottom]

theorem Rising.merge_subset (h : Collects p facts all step)
    (hs : Rising p facts all step s) (i : Fin n) :
    facts (p.merge s.nodes i) ⊆ all := by
  intro x hx
  rcases (h.mem_merge s.nodes i).mp hx with hx | ⟨j, e, -, hx⟩
  · unfold Problem.initial at hx
    split at hx
    · exact h.entry hx
    · simp [h.bottom] at hx
  · rw [hs.level] at hx
    exact hs.within j hx

section Update

variable (h : Collects p facts all step) (ho : p.transfer i (p.arriving s i) = .ok out)

include h ho

/-- A visit stores what the instruction makes of all that flows in. -/
theorem facts_update_self (e : Edge) :
    facts (((p.update s i out).nodes.get i).out e) = facts (step i (p.merge s.nodes i)) := by
  rw [h.transfer, h.arriving_eq] at ho
  obtain rfl := Except.ok.inj ho
  rw [Problem.update_node_self, Problem.nodeAt_out]
  cases e <;> exact h.facts_settle _ _

theorem merge_update (hs : Rising p facts all step s) (j : Fin n) :
    facts (p.merge s.nodes j) ⊆ facts (p.merge (p.update s i out).nodes j) := by
  intro x hx
  rw [h.mem_merge] at hx ⊢
  refine hx.imp_right ?_
  rintro ⟨k, e, hk, hx⟩
  refine ⟨k, e, hk, ?_⟩
  by_cases hki : k = i
  · subst hki
    rw [facts_update_self h ho]
    rw [hs.level] at hx
    exact hs.produced k hx
  · rwa [Problem.update_node_of_ne hki]

theorem Rising.update (hs : Rising p facts all step s) :
    Rising p facts all step (p.update s i out) := by
  have hself := facts_update_self h ho
  refine ⟨fun j e => ?_, fun j => ?_, fun j => ?_⟩
  · by_cases hji : j = i
    · subst hji
      exact (hself e).trans (hself .fall).symm
    · rw [Problem.update_node_of_ne hji]
      exact hs.level j e
  · by_cases hji : j = i
    · subst hji
      exact (hself .fall).trans_subset (h.step j _ (hs.merge_subset h j))
    · rw [Problem.update_node_of_ne hji]
      exact hs.within j
  · have hmono := h.mono j _ _ (merge_update h ho hs j)
    by_cases hji : j = i
    · subst hji
      exact (hself .fall).trans_subset hmono
    · rw [Problem.update_node_of_ne hji]
      exact (hs.produced j).trans hmono

/-- A visit that moves an edge adds a fact to it. -/
theorem card_update (hs : Rising p facts all step s) :
    (facts (s.nodes.get i).fall).card + (p.visitAt s i out).moves.toNat ≤
      (facts ((p.update s i out).nodes.get i).fall).card := by
  have hnew : facts ((p.update s i out).nodes.get i).fall = facts (step i (p.merge s.nodes i)) :=
    facts_update_self h ho .fall
  rw [hnew]
  have hsub := hs.produced i
  cases hm : (p.visitAt s i out).moves with
  | false => exact Finset.card_le_card hsub
  | true =>
    apply Finset.card_lt_card
    -- with no new fact neither edge would have moved
    refine hsub.ssubset_of_ne fun heq => ?_
    rw [h.transfer, h.arriving_eq] at ho
    obtain rfl := Except.ok.inj ho
    have hsame : ∀ e d, (Outflow.uniform (step i (p.merge s.nodes i))).on e = some d →
        AbstractDomain.same ((s.nodes.get i).out e) d = true := by
      intro e d hd
      obtain rfl : step i (p.merge s.nodes i) = d := by cases e <;> exact Option.some.inj hd
      rw [h.same, hs.level, heq]
    rw [Problem.not_moves_of_same hsame] at hm
    cases hm

end Update

theorem moveCount_le_card (h : Collects p facts all step) (hv : p.Visits s vs t)
    (hs : Rising p facts all step s) (i : Fin n) :
    (facts (s.nodes.get i).fall).card + Problem.moveCount vs i ≤ all.card := by
  induction hv with
  | done => exact Finset.card_le_card (hs.within i)
  | @visit s t k out vs next produced rest ih =>
    have hrest := ih (hs.update h produced)
    by_cases hki : k = i
    · subst hki
      have hcard := card_update h produced hs
      have hcount := Problem.moveCount_cons_self (p.visitAt s k out) vs
      change Problem.moveCount _ k = Problem.moveCount vs k + _ at hcount
      omega
    · rw [Problem.moveCount_cons_of_ne (v := p.visitAt s k out) vs hki]
      rwa [Problem.update_node_of_ne (Ne.symm hki)] at hrest

/-- A move wakes no more instructions than there are edges to move. -/
theorem sum_countP_adj_le {g : Graph n} {k : Nat} (hg : ∀ i, (g.successors i).length ≤ k)
    (vs : List (Visit D n)) :
    ∑ j, vs.countP (fun v => decide (g.Adj v.index j) && v.moves) ≤ k * vs.countP Visit.moves := by
  have hcard : ∀ i, (Finset.univ.filter (g.Adj i)).card ≤ k := by
    intro i
    have hnext : Finset.univ.filter (g.Adj i) = (g.next i).toFinset := by
      ext j
      simp [Graph.Adj]
    calc (Finset.univ.filter (g.Adj i)).card = (g.next i).toFinset.card := by rw [hnext]
      _ ≤ (g.next i).length := List.toFinset_card_le _
      _ = (g.successors i).length := by simp [Graph.next]
      _ ≤ k := hg i
  induction vs with
  | nil => simp
  | cons v vs ih =>
    have hv : ∑ j, (if (decide (g.Adj v.index j) && v.moves) = true then 1 else 0) ≤
        k * if v.moves = true then 1 else 0 := by
      cases v.moves with
      | false => simp
      | true => simpa using hcard v.index
    simp only [List.countP_cons, Finset.sum_add_distrib, Nat.mul_add]
    exact Nat.add_le_add ih hv

/-- Each instruction is visited once, and again after each new fact on an edge into it. -/
theorem length_visits_le (h : Collects p facts all step) {k : Nat}
    (hg : ∀ i, (p.graph.successors i).length ≤ k) (hv : p.Visits p.start vs t) :
    vs.length ≤ n + k * (n * all.card) := by
  have hmoves : vs.countP Visit.moves ≤ n * all.card := by
    rw [countP_eq_sum_index]
    calc ∑ i, Problem.moveCount vs i ≤ ∑ _i : Fin n, all.card := by
          apply Finset.sum_le_sum
          intro i _
          have hle := h.moveCount_le_card hv h.rising_start i
          omega
      _ = n * all.card := by simp
  have hvisits : ∀ j, Problem.visitCount vs j ≤
      1 + vs.countP fun v => decide (p.graph.Adj v.index j) && v.moves := by
    intro j
    have hle := hv.visitCount_le j
    have hpend : (p.start.pending.get j).toNat ≤ 1 := Bool.toNat_le _
    omega
  calc vs.length = ∑ j, Problem.visitCount vs j := Problem.length_eq_sum_visitCount vs
    _ ≤ ∑ j, (1 + vs.countP fun v => decide (p.graph.Adj v.index j) && v.moves) :=
        Finset.sum_le_sum fun j _ => hvisits j
    _ = n + ∑ j, vs.countP fun v => decide (p.graph.Adj v.index j) && v.moves := by
        simp [Finset.sum_add_distrib]
    _ ≤ n + k * vs.countP Visit.moves := Nat.add_le_add_left (sum_countP_adj_le hg vs) n
    _ ≤ n + k * (n * all.card) := Nat.add_le_add_left (Nat.mul_le_mul_left k hmoves) n

/-- The iteration ends with states if it may take as many steps as there can be visits. -/
theorem solve_ok (h : Collects p facts all step) {k fuel : Nat}
    (hg : ∀ i, (p.graph.successors i).length ≤ k) (hfuel : n + k * (n * all.card) ≤ fuel) :
    ∃ sol, (p.solve fuel).result = .ok sol :=
  Problem.run_ok (fun i d => ⟨_, h.transfer i d⟩)
    fun _ _ hv => (h.length_visits_le hg hv).trans hfuel

end Collects

end Lifespan.Dataflow
