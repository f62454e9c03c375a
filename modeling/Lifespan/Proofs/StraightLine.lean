import Lifespan.Proofs.Numeric.Soundness

namespace Lifespan

namespace Graph

variable {n : Nat} {g : Graph n} {i j : Fin n}

/-- Each node leads to the next one and nowhere else. -/
def IsLine (g : Graph n) : Prop :=
  ∀ i, g.successors i = if h : i.val + 1 < n then [(⟨i.val + 1, h⟩, .fall)] else []

namespace IsLine

theorem mem_successors (h : g.IsLine) {e : Edge} :
    (j, e) ∈ g.successors i ↔ e = .fall ∧ j.val = i.val + 1 := by
  rw [h i]
  split
  · simp [Fin.ext_iff, and_comm]
  · simp
    omega

theorem adj_iff (h : g.IsLine) : g.Adj i j ↔ j.val = i.val + 1 := by
  simp [Graph.adj_iff, h.mem_successors]

theorem predecessors_zero (h : g.IsLine) (hj : j.val = 0) : g.predecessors j = [] := by
  apply List.eq_nil_iff_forall_not_mem.mpr
  rintro ⟨i, e⟩ hi
  rw [mem_predecessors, h.mem_successors] at hi
  omega

theorem predecessors_succ (h : g.IsLine) (hij : j.val = i.val + 1) :
    g.predecessors j = [(i, .fall)] := by
  have hedges : ∀ k, (g.successors k).filterMap (fun s => if s.1 = j then some (k, s.2) else none) =
      if i = k then [(k, .fall)] else [] := by
    intro k
    rw [h k]
    by_cases hk : i = k
    · subst hk
      have hlt : i.val + 1 < n := hij ▸ j.isLt
      simp [hlt, Fin.ext_iff, hij]
    · have hne : ¬ k.val + 1 = j.val := by omega
      rw [if_neg hk]
      split <;> simp [Fin.ext_iff, hne]
  -- the nodes before and after `i` contribute nothing
  obtain ⟨before, after, hsplit⟩ := List.append_of_mem (List.mem_finRange i)
  have hnodup := List.nodup_finRange n
  rw [hsplit, List.nodup_append, List.nodup_cons] at hnodup
  obtain ⟨-, ⟨hafter, -⟩, hbefore⟩ := hnodup
  have hnone : ∀ l : List (Fin n), i ∉ l →
      (l.flatMap fun k => if i = k then [(k, Edge.fall)] else []) = [] := by
    intro l hl
    apply List.flatMap_eq_nil_iff.mpr
    intro k hk
    have hne : i ≠ k := fun heq => hl (heq ▸ hk)
    exact if_neg hne
  change ((List.finRange n).flatMap fun k =>
    (g.successors k).filterMap fun s => if s.1 = j then some (k, s.2) else none) = _
  simp only [hedges]
  rw [hsplit, List.flatMap_append, List.flatMap_cons, if_pos rfl, hnone after hafter,
    hnone before fun hi => hbefore i hi i List.mem_cons_self rfl]
  rfl

/-- The search from the entry comes to every node before `i` without passing `i`. -/
theorem reachableAvoiding (h : g.IsLine) (start : Fin n) (hstart : start.val = 0) (hj : j < i) :
    (g.reachableAvoiding i start).get j = true := by
  obtain ⟨j, hlt⟩ := j
  induction j with
  | zero =>
    apply explore_of_pending
    exact List.mem_singleton.mpr (Fin.ext hstart.symm)
  | succ j ih =>
    have hprev : j < n := Nat.lt_of_succ_lt hlt
    have hbefore : (⟨j, hprev⟩ : Fin n) < i := Nat.lt_of_succ_lt hj
    apply explore_closed g.next _ _ (ih hprev hbefore)
    · rw [Vector.get_set_of_ne _ _ (ne_of_lt hbefore)]
      simp
    · exact h.adj_iff.mpr rfl

theorem isLoopHead_eq_false (h : g.IsLine) (i : Fin n) : g.isLoopHead i = false := by
  have hpos : 0 < n := Nat.zero_lt_of_lt i.isLt
  rw [isLoopHead_eq_any]
  apply List.any_eq_false.mpr
  intro j _
  by_cases hj : (g.next j).contains i = true
  · have hstep : i.val = j.val + 1 := h.adj_iff.mp (List.contains_iff_mem.mp hj)
    have hlt : j < i := by
      rw [Fin.lt_def]
      omega
    have haround := h.reachableAvoiding ⟨0, hpos⟩ rfl hlt
    simp [dominated, entry?, hpos, haround, ne_of_lt hlt]
  · simp only [hj, Bool.false_and, Bool.false_eq_true, not_false_eq_true]

theorem isOnCycle_eq_false (h : g.IsLine) (i : Fin n) : g.isOnCycle i = false := by
  by_contra hcycle
  have hup : ∀ j, Relation.TransGen g.Adj i j → i < j := by
    intro j hij
    induction hij with
    | single hadj =>
      have hstep := h.adj_iff.mp hadj
      rw [Fin.lt_def]
      omega
    | tail _ hadj ih =>
      have hstep := h.adj_iff.mp hadj
      rw [Fin.lt_def] at ih ⊢
      omega
  exact lt_irrefl i (hup i (isOnCycle_iff_transGen.mp (Bool.not_eq_false _ ▸ hcycle)))

end IsLine

end Graph

namespace Dataflow.Problem

variable {D : Type} {n : Nat} [AbstractDomain D] {p : Problem D n} {fuel : Nat}
    {sol : Solution D n} {i j : Fin n}

theorem incoming_first (hline : p.graph.IsLine) (h : (p.solve fuel).result = .ok sol)
    (hj : j.val = 0) :
    (sol.nodes.get j).incoming = p.entry := by
  rw [incoming_of_solve h (hline.isLoopHead_eq_false j), merge, hline.predecessors_zero hj]
  exact if_pos hj

theorem incoming_next (hline : p.graph.IsLine) (h : (p.solve fuel).result = .ok sol)
    (hij : j.val = i.val + 1) :
    (sol.nodes.get j).incoming = AbstractDomain.join p.bottom (sol.nodes.get i).fall := by
  have hinitial : p.initial j = p.bottom := if_neg (by omega)
  rw [incoming_of_solve h (hline.isLoopHead_eq_false j), merge,
    hline.predecessors_succ hij, hinitial]
  rfl

end Dataflow.Problem

/-- Ends the method. -/
def Code.Instr.isReturn {V P T : Type} : Code.Instr V P T → Bool
  | .returnVoid | .returnValue _ => true
  | _ => false

/-- The locals in what an assignment or a call evaluates. -/
def Code.Instr.operands {V P T : Type} : Code.Instr V P T → List V
  | .assign _ value => value.locals
  | .call c => c.args.flatMap Code.Expr.locals
  | _ => []

theorem Code.Instr.operands_subset {V P T : Type} (instr : Code.Instr V P T) :
    instr.operands ⊆ instr.locals := by
  intro x hx
  cases instr with
  | assign | call => exact List.mem_append_right _ hx
  | _ => cases hx

theorem Code.Instr.mem_operands_call {V P T : Type} {c : Code.Call V P} {e : Code.Expr V P}
    (he : e ∈ c.args) {x : V} (hx : x ∈ e.locals) :
    x ∈ (Code.Instr.call c : Code.Instr V P T).operands :=
  List.mem_flatMap.mpr ⟨e, he, hx⟩

/-- The int local that an instruction assigns. -/
def Code.Instr.setsInt? {P T : Type} : Code.Instr Local P T → Option String
  | .assign (.var x) _ => if x.ty = .int then some x.name else none
  | _ => none

namespace Effect

variable {n : Nat} {s : Settings} {args : Nat → Int} {σ τ : Machine n} {e : Edge} {y : Local}
    {value : Expr} {c : Call}

theorem eq_setInt (h : Effect s args σ (.assign (.var y) value) e τ) (hty : y.ty = .int)
    {t : Term String} (ht : value.term = .ok t) : τ = σ.setInt y.name (t.eval σ.ints) := by
  cases h with
  | assignInt _ hvalue => rw [(Code.Expr.value_iff_of_term ht).mp hvalue]
  | assignRef _ href =>
    rw [hty] at href
    cases href
  | assignOther _ hother =>
    rw [hother y rfl] at hty
    cases hty

theorem eq_setRef (h : Effect s args σ (.assign (.var y) value) e τ)
    (hty : y.ty.isReference = true) :
    τ = σ.setRef y.name value := by
  cases h with
  | assignRef => rfl
  | assignInt ty =>
    rw [ty] at hty
    cases hty
  | assignOther _ hother =>
    rw [hother y rfl] at hty
    cases hty

theorem eq_self (h : Effect s args σ (.call c) e τ) (hnone : s.bounds? c = none) : τ = σ := by
  cases h with
  | call => rfl
  | construct hsome =>
    rw [hsome] at hnone
    cases hnone

theorem exists_construct (h : Effect s args σ (.call c) e τ) {start finish : Expr} {t : Term String}
    (hbounds : s.bounds? c = some (start, finish)) (ht : finish.term = .ok t) :
    ∃ a, start.Value args σ.ints a ∧ τ = σ.construct c.receiver a (t.eval σ.ints) := by
  cases h with
  | call hnone =>
    rw [hnone] at hbounds
    cases hbounds
  | construct hsome first last =>
    obtain ⟨rfl, rfl⟩ := Prod.mk.inj (Option.some.inj (hsome.symm.trans hbounds))
    exact ⟨_, first, by rw [(Code.Expr.value_iff_of_term ht).mp last]⟩

end Effect

namespace Body

/-- Code without jumps that returns at its end, and assigns each int local before it uses it. No
parameter is copied into an int local. -/
structure Straight (b : Body) : Prop where
  jumps : ∀ i, (b.code.get i).target? = none
  returns : ∀ i, i.val + 1 < b.size → (b.code.get i).isReturn = false
  params : ∀ i, (b.code.get i).takesInt = false
  assigned : ∀ i, ∀ x ∈ (b.code.get i).operands, x.ty = .int →
    ∃ j < i, (b.code.get j).setsInt? = some x.name

variable {b : Body} {s : Settings} {args : Nat → Int} {σ : Machine b.size}

theorem Straight.fallsThrough (h : b.Straight) (hthrow : ∀ i e, b.code.get i ≠ .throwValue e)
    {i : Fin b.size} (hi : i.val + 1 < b.size) : (b.code.get i).fallsThrough = true := by
  have hjump := h.jumps i
  have hreturn := h.returns i hi
  have hno := hthrow i
  cases hcode : b.code.get i with
  | throwValue e => exact absurd hcode (hno e)
  | assign | call => rfl
  | branch | goto =>
    rw [hcode] at hjump
    cases hjump
  | returnVoid | returnValue =>
    rw [hcode] at hreturn
    cases hreturn

theorem Straight.isLine (h : b.Straight) (hthrow : ∀ i e, b.code.get i ≠ .throwValue e) :
    b.graph.IsLine := by
  intro i
  have hjump := h.jumps i
  by_cases hi : i.val + 1 < b.size
  · simp [graph, Graph.ofCode, Graph.successors, hjump, hi, h.fallsThrough hthrow hi]
  · simp [graph, Graph.ofCode, Graph.successors, hjump, hi]

theorem Straight.next_of_leads (h : b.Straight) {e : Edge} {i j : Fin b.size}
    (hij : b.Leads i e j) :
    j.val = i.val + 1 := by
  cases e with
  | fall => exact hij
  | branch => cases (h.jumps i).symm.trans hij

theorem Straight.paramsLead (h : b.Straight) : b.ParamsLead := by
  intro i hi
  rw [h.params i] at hi
  cases hi

/-- What was constructed lies behind. -/
theorem Reachable.index_lt (h : b.Reachable s args σ) (hline : b.graph.IsLine) :
    ∀ k ∈ σ.constructions, k.index < σ.pc := by
  have hup : ∀ i j, Relation.TransGen b.graph.Adj i j → i < j := by
    intro i j hij
    induction hij with
    | single hadj =>
      rw [Fin.lt_def, hline.adj_iff.mp hadj]
      exact Nat.lt_succ_self _
    | tail _ hadj ih =>
      rw [Fin.lt_def, hline.adj_iff.mp hadj]
      exact Nat.lt_succ_of_lt ih
  exact fun k hk => hup _ _ (h.transGen_of_mem k hk)

/-- If no instruction gets stuck, a run comes to each of them. -/
theorem exists_reachable (hprogress : ∀ σ : Machine b.size, b.Reachable s args σ →
      σ.pc.val + 1 < b.size →
    ∃ τ, Effect s args σ (b.code.get σ.pc) .fall τ) (i : Fin b.size) :
    ∃ σ : Machine b.size, b.Reachable s args σ ∧ σ.pc = i := by
  obtain ⟨i, hi⟩ := i
  induction i with
  | zero =>
    exact ⟨⟨⟨0, hi⟩, fun _ => 0, fun _ => none, [], []⟩, .start ⟨rfl, fun _ => rfl, rfl, rfl⟩, rfl⟩
  | succ i ih =>
    obtain ⟨σ, hσ, hpc⟩ := ih (Nat.lt_of_succ_lt hi)
    have hval : σ.pc.val = i := congrArg Fin.val hpc
    obtain ⟨τ, effect⟩ := hprogress σ hσ (by omega)
    have hleads : b.Leads σ.pc .fall ⟨i + 1, hi⟩ := by rw [Leads, hval]
    exact ⟨τ.goto ⟨i + 1, hi⟩, hσ.step (.mk effect hleads), rfl⟩

end Body

end Lifespan
