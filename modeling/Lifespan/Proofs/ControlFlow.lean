import Lifespan.Proofs.Execution
import Lifespan.Proofs.Iteration
import Mathlib.Data.List.Duplicate

namespace Lifespan

namespace Graph

variable {n : Nat} {g : Graph n} {h i j k u : Fin n} {l : List (Fin n)}

/-- The order of the edges at an instruction: by the instruction at their other end, falling through
before branching. -/
def Precedes (a b : Fin n × Edge) : Prop := a.1 < b.1 ∨ a.1 = b.1 ∧ a.2 = .fall ∧ b.2 = .branch

theorem pairwise_successors_ofCode (code : Vector (Instr n) n) (i : Fin n) :
    ((ofCode code).successors i).Pairwise Precedes := by
  simp only [successors, ofCode, Vector.get_ofFn]
  cases (code.get i).target? with
  | none => dsimp only; split <;> simp
  | some t =>
    dsimp only
    split
    case isTrue hback =>
      split
      · exact List.pairwise_pair.mpr (.inl (Nat.lt_succ_of_le hback))
      · exact List.pairwise_singleton _ _
    case isFalse hforward =>
      split
      · refine List.pairwise_pair.mpr ?_
        rcases Nat.lt_or_eq_of_le (Nat.lt_of_not_le hforward) with hlt | heq
        · exact .inl hlt
        · exact .inr ⟨Fin.ext heq, rfl, rfl⟩
      · exact List.pairwise_singleton _ _

theorem pairwise_predecessors (hsorted : ∀ i, (g.successors i).Pairwise Precedes) (j : Fin n) :
    (g.predecessors j).Pairwise Precedes := by
  have hedge : ∀ {i : Fin n} {a b : Fin n × Edge}, (if a.1 = j then some (i, a.2) else none) =
      some b →
      a.1 = j ∧ b = (i, a.2) := by
    intro i a b hb
    obtain ⟨hj, heq⟩ := Option.ite_none_right_eq_some.mp hb
    exact ⟨hj, (Option.some.inj heq).symm⟩
  apply List.pairwise_flatMap.mpr
  constructor
  · intro i _
    -- of two edges from `i` to `j` the first falls through
    refine List.pairwise_filterMap.mpr ((hsorted i).imp fun {a a'} hlt b hb b' hb' => ?_)
    obtain ⟨hj, rfl⟩ := hedge hb
    obtain ⟨hj', rfl⟩ := hedge hb'
    rcases hlt with hlt | ⟨-, hkinds⟩
    · exact absurd hlt (by rw [hj, hj']; exact lt_irrefl j)
    · exact .inr ⟨rfl, hkinds⟩
  · refine (List.pairwise_lt_finRange n).imp fun {i i'} hlt b hb b' hb' => .inl ?_
    obtain ⟨a, -, hb⟩ := List.mem_filterMap.mp hb
    obtain ⟨a', -, hb'⟩ := List.mem_filterMap.mp hb'
    obtain ⟨-, rfl⟩ := hedge hb
    obtain ⟨-, rfl⟩ := hedge hb'
    exact hlt

end Graph

namespace Body

variable {b : Body} {s : Settings} {args : Nat → Int}

/-- A run that is at an instruction twice has gone along a path from it to itself in between. -/
theorem transGen_of_twice {run : List (Machine b.size)}
    (hrun : run.IsChain fun σ τ => ∃ e, b.Step s args σ e τ) {i : Fin b.size}
    (htwice : 1 < (run.map Machine.pc).count i) : Relation.TransGen b.graph.Adj i i := by
  have hpaths : (run.map Machine.pc).IsChain (Relation.TransGen b.graph.Adj) := by
    refine (List.isChain_map _).mpr (hrun.imp fun σ τ hstep => ?_)
    obtain ⟨e, hstep⟩ := hstep
    exact .single (Graph.adj_iff.mpr ⟨e, hstep.adj⟩)
  have htwo : List.Sublist [i, i] (run.map Machine.pc) :=
    List.duplicate_iff_sublist.mp (List.duplicate_iff_two_le_count.mpr htwice)
  have hpair := (List.isChain_iff_pairwise.mp hpaths).sublist htwo
  exact List.pairwise_pair.mp hpair

/-- The edges at an instruction are sorted and are those along which control can go on or can have
come. An instruction is on a cycle exactly if a path leads from it back to it, and no run executes
another one twice. The loop heads are the targets of edges from instructions that paths from the
first one lead to, but only through the target. All correct answers about the graph lead to the sets
that the analysis uses. -/
theorem graph_controlFlow (b : Body) (a : Graph.Answers b.size) (ha : a.Correct b.graph) :
    (∀ i, (b.graph.successors i).Pairwise Graph.Precedes ∧
      ∀ j e, (j, e) ∈ b.graph.successors i ↔
        e = .fall ∧ (b.code.get i).fallsThrough = true ∧ j.val = i.val + 1 ∨
        e = .branch ∧ (b.code.get i).target? = some j) ∧
    (∀ j, (b.graph.predecessors j).Pairwise Graph.Precedes ∧
      ∀ i e, (i, e) ∈ b.graph.predecessors j ↔ (j, e) ∈ b.graph.successors i) ∧
    (∀ i, (b.graph.onCycleBy a).contains i = true ↔ ∃ l, b.graph.Path i i l ∧ 1 < l.length) ∧
    (∀ s args (run : List (Machine b.size)), (run.IsChain fun σ τ => ∃ e, b.Step s args σ e τ) →
      ∀ i, (b.graph.onCycleBy a).contains i = false → (run.map Machine.pc).count i ≤ 1) ∧
    (∀ h, (b.graph.loopHeadsBy a).contains h = true ↔ ∃ u e, (h, e) ∈ b.graph.successors u ∧
      (∃ l, b.graph.Path ⟨0, b.pos⟩ u l) ∧ ∀ l, b.graph.Path ⟨0, b.pos⟩ u l → h ∈ l) ∧
    b.graph.onCycle = b.graph.onCycleBy a ∧ b.graph.loopHeads = b.graph.loopHeadsBy a := by
  have hsorted := Graph.pairwise_successors_ofCode b.code
  have hcycle (i : Fin b.size) : (b.graph.onCycleBy a).contains i = true ↔
      Relation.TransGen b.graph.Adj i i :=
    (FinSet.mem_elems _ i).symm.trans ha.mem_onCycleBy
  have hcorrect := b.graph.search_correct
  have hstart : (⟨0, b.pos⟩ : Fin b.size).val = 0 := rfl
  refine ⟨fun i => ⟨hsorted i, fun j e => Graph.mem_successors_ofCode⟩,
    fun j => ⟨Graph.pairwise_predecessors hsorted j, fun i e => Graph.mem_predecessors⟩,
    fun i => (hcycle i).trans Graph.transGen_iff_path, fun s args run hrun i hi => ?_,
    fun h => ?_, FinSet.ext_elems fun i => ?_, FinSet.ext_elems fun i => ?_⟩
  · by_contra htwice
    rw [(hcycle i).mpr (transGen_of_twice hrun (not_le.mp htwice))] at hi
    cases hi
  · refine (FinSet.mem_elems _ h).symm.trans ((ha.mem_loopHeadsBy hstart).trans ?_)
    simp only [Graph.adj_iff, exists_and_right]
  · exact hcorrect.mem_onCycleBy.trans ha.mem_onCycleBy.symm
  · exact (hcorrect.mem_loopHeadsBy hstart).trans (ha.mem_loopHeadsBy hstart).symm

/-- A loop that is entered in two places, with two edges from its first instruction to its second,
and a loop that nothing leads to. -/
def tangled : Body where
  size := 5
  code :=
    let x : Local := ⟨"x", .int⟩
    #v[.branch (.compare .lt (.var x) (.int 0)) ⟨2, by decide⟩,
      .branch (.compare .lt (.var x) (.int 1)) ⟨2, by decide⟩,
      .branch (.compare .lt (.var x) (.int 2)) ⟨1, by decide⟩,
      .returnVoid,
      .goto (Fin.last 4)]
  pos := Nat.zero_lt_succ _
  ends := Eq.refl false

theorem tangled_adj (u j : Fin tangled.size) :
    tangled.graph.Adj u j ↔ (u.val, j.val) ∈ [(0, 1), (0, 2), (1, 2), (2, 1), (2, 3), (4, 4)] := by
  revert u j
  decide

/-- With `x` at `-1` each of its branches is taken. -/
def tangledAt (pc : Fin 5) : Machine 5 := ⟨pc, fun _ => -1, fun _ => none, [], []⟩

theorem tangled_run :
    [tangledAt 0, tangledAt 2, tangledAt 1, tangledAt 2].IsChain fun σ τ =>
      ∃ e, tangled.Step {} (fun _ => 0) σ e τ := by
  have h02 : tangled.Step {} (fun _ => 0) (tangledAt 0) .branch ((tangledAt 0).goto 2) :=
    .mk (.take (.compare .lt (.var rfl) (.int 0))) (Eq.refl (some (2 : Fin 5)))
  have h21 : tangled.Step {} (fun _ => 0) (tangledAt 2) .branch ((tangledAt 2).goto 1) :=
    .mk (.take (.compare .lt (.var rfl) (.int 2))) (Eq.refl (some (1 : Fin 5)))
  have h12 : tangled.Step {} (fun _ => 0) (tangledAt 1) .branch ((tangledAt 1).goto 2) :=
    .mk (.take (.compare .lt (.var rfl) (.int 1))) (Eq.refl (some (2 : Fin 5)))
  exact .cons_cons ⟨_, h02⟩ (.cons_cons ⟨_, h21⟩ (.cons_cons ⟨_, h12⟩ (.singleton _)))

/-- Both loops are cycles. The first has no head, since it can be entered past each of its
instructions, and a run that comes to it twice has been at the first instruction once. -/
theorem graph_controlFlow_tangled :
    tangled.graph.isOnCycle (1 : Fin 5) = true ∧ tangled.graph.isOnCycle (4 : Fin 5) = true ∧
    tangled.graph.isOnCycle (0 : Fin 5) = false ∧ tangled.graph.isLoopHead (1 : Fin 5) = false ∧
    ∃ run : List (Machine 5), (run.IsChain fun σ τ => ∃ e, tangled.Step {} (fun _ => 0) σ e τ) ∧
      (run.map Machine.pc).count 2 = 2 ∧ (run.map Machine.pc).count 0 ≤ 1 := by
  obtain ⟨-, -, hcycle, honce, hhead, -, -⟩ :=
    graph_controlFlow tangled tangled.graph.search tangled.graph.search_correct
  have h02 := (tangled_adj (0 : Fin 5) (2 : Fin 5)).mpr (by decide)
  have h12 := (tangled_adj (1 : Fin 5) (2 : Fin 5)).mpr (by decide)
  have h21 := (tangled_adj (2 : Fin 5) (1 : Fin 5)).mpr (by decide)
  have h44 := (tangled_adj (4 : Fin 5) (4 : Fin 5)).mpr (by decide)
  have hfirst : tangled.graph.isOnCycle (0 : Fin 5) = false := by
    by_contra hloop
    obtain ⟨l, hpath, hlen⟩ := (hcycle _).mp (Bool.eq_true_of_not_eq_false hloop)
    cases hpath with
    | refl => exact absurd hlen (lt_irrefl 1)
    | tail _ adj => simpa using (tangled_adj _ _).mp adj
  refine ⟨(hcycle _).mpr ⟨_, (Graph.Path.refl.tail h12).tail h21, by decide⟩,
    (hcycle _).mpr ⟨_, Graph.Path.refl.tail h44, by decide⟩, hfirst, ?_,
    _, tangled_run, by decide, honce {} _ _ tangled_run _ hfirst⟩
  by_contra hloop
  obtain ⟨u, e, hedge, -, hthrough⟩ := (hhead _).mp (Bool.eq_true_of_not_eq_false hloop)
  have hu : u.val = 0 ∨ u.val = 2 := by
    simpa using (tangled_adj _ _).mp (Graph.adj_iff.mpr ⟨e, hedge⟩)
  -- control comes to both without passing the second instruction
  rcases hu with hu | hu
  · obtain rfl : u = (0 : Fin 5) := Fin.ext hu
    have hfree : (1 : Fin 5) ∉ [(0 : Fin 5)] := by decide
    exact hfree (hthrough _ .refl)
  · obtain rfl : u = (2 : Fin 5) := Fin.ext hu
    have hfree : (1 : Fin 5) ∉ [(0 : Fin 5), 2] := by decide
    exact hfree (hthrough _ (Graph.Path.refl.tail h02))

end Body

end Lifespan
