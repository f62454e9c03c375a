import Lifespan.Graph
import Lifespan.Proofs.Vector
import Mathlib.Data.Fintype.EquivFin
import Mathlib.Data.List.Chain
import Mathlib.Logic.Relation

namespace Lifespan.Graph

variable {n : Nat} {g : Graph n}

/-- An edge of either kind leads from `i` to `j`. -/
def Adj (g : Graph n) (i j : Fin n) : Prop := j ∈ g.next i

instance (i j : Fin n) : Decidable (g.Adj i j) := inferInstanceAs (Decidable (j ∈ g.next i))

theorem adj_iff {i j : Fin n} : g.Adj i j ↔ ∃ e, (j, e) ∈ g.successors i := by
  simp [Adj, next]

/-- Control leaves an instruction in at most two ways. -/
theorem length_successors_ofCode (code : Vector (Instr n) n) (i : Fin n) :
    ((ofCode code).successors i).length ≤ 2 := by
  simp only [successors, ofCode, Vector.get_ofFn]
  split
  · split <;> simp
  · split <;> split <;> simp

theorem mem_successors_ofCode {code : Vector (Instr n) n} {i j : Fin n} {e : Edge} :
    (j, e) ∈ (ofCode code).successors i ↔
      e = .fall ∧ (code.get i).fallsThrough = true ∧ j.val = i.val + 1 ∨
      e = .branch ∧ (code.get i).target? = some j := by
  have hfalls : (j, e) ∈ (if h : (code.get i).fallsThrough ∧ i.val + 1 < n then
      [((⟨i.val + 1, h.2⟩ : Fin n), Edge.fall)] else []) ↔
      e = .fall ∧ (code.get i).fallsThrough = true ∧ j.val = i.val + 1 := by
    split
    case isTrue h =>
      simp [Fin.ext_iff, h.1, and_comm]
    case isFalse h =>
      simp only [List.not_mem_nil, false_iff]
      rintro ⟨-, hthrough, hnext⟩
      exact h ⟨hthrough, hnext ▸ j.isLt⟩
  simp only [successors, ofCode, Vector.get_ofFn]
  cases ht : (code.get i).target? with
  | none => simp [hfalls]
  | some t =>
    dsimp only
    have hbranch : (j, e) = (t, Edge.branch) ↔ e = .branch ∧ some t = some j := by
      simp [and_comm, eq_comm]
    split
    · rw [List.mem_cons, hfalls, hbranch, or_comm]
    · rw [List.mem_append, List.mem_singleton, hfalls, hbranch]

/-- A path leads from the first instruction to `j`. -/
def FromEntry (g : Graph n) (j : Fin n) : Prop :=
  ∃ i : Fin n, i.val = 0 ∧ Relation.ReflTransGen g.Adj i j

theorem FromEntry.adj {i j : Fin n} (h : g.FromEntry i) (hij : g.Adj i j) : g.FromEntry j := by
  obtain ⟨k, hk, hki⟩ := h
  exact ⟨k, hk, hki.tail hij⟩

/-- A list of instructions along edges, the last of which leads back to the first. -/
def IsCycle (g : Graph n) : List (Fin n) → Prop
  | [] => False
  | i :: rest => (i :: rest ++ [i]).IsChain g.Adj

/-- Every cycle that can be reached has a loop head on it. -/
def CyclesHeaded (g : Graph n) : Prop :=
  ∀ l, g.IsCycle l → (∃ i ∈ l, g.FromEntry i) → ∃ h ∈ l, g.isLoopHead h = true

/-- It is enough that every step back is one from or to a loop head. -/
theorem cyclesHeaded_of_forward
    (h : ∀ i j, g.Adj i j → g.isLoopHead i = true ∨ g.isLoopHead j = true ∨ i < j) :
    g.CyclesHeaded := by
  intro l hl _
  cases l with
  | nil => exact hl.elim
  | cons i rest =>
    by_contra hnone
    push Not at hnone
    have hmem : ∀ j ∈ i :: rest ++ [i], g.isLoopHead j ≠ true := by
      intro j hj
      apply hnone
      simpa [or_comm, or_assoc] using hj
    -- without a head the cycle would lead up all the way
    have hup : (i :: rest ++ [i]).IsChain (· < ·) := by
      refine List.IsChain.imp_of_mem_imp (fun a b ha hb hab => ?_) hl
      exact ((h a b hab).resolve_left (hmem a ha)).resolve_left (hmem b hb)
    have hlt := List.rel_of_pairwise_cons (List.isChain_iff_pairwise.mp hup)
      (List.mem_append_right rest (List.mem_singleton_self i))
    exact lt_irrefl i hlt

/-- A path through instructions with a property closes to a cycle of such. -/
theorem exists_cycle {P : Fin n → Prop} {i : Fin n}
    (h : Relation.TransGen (fun a b => g.Adj a b ∧ P a ∧ P b) i i) :
    ∃ l, g.IsCycle l ∧ i ∈ l ∧ ∀ j ∈ l, P j := by
  obtain ⟨k, hik, hki⟩ := Relation.TransGen.head'_iff.mp h
  obtain ⟨l, hchain, hlast⟩ := List.exists_isChain_cons_of_relationReflTransGen hki
  have hsplit : (k :: l).dropLast ++ [i] = k :: l := by
    rw [← hlast]
    exact List.dropLast_append_getLast _
  have hall : (i :: (k :: l)).IsChain fun a b => g.Adj a b ∧ P a ∧ P b := hchain.cons_cons hik
  refine ⟨i :: (k :: l).dropLast, ?_, List.mem_cons_self, ?_⟩
  · change ((i :: (k :: l).dropLast) ++ [i]).IsChain g.Adj
    rw [List.cons_append, hsplit]
    exact hall.imp fun _ _ hab => hab.1
  · intro j hj
    rcases List.mem_cons.mp hj with rfl | hj
    · exact hik.2.1
    · exact hall.cons_induction P (k :: l) (fun _ _ hab _ => hab.2.2) hik.2.1 j
        (List.mem_of_mem_dropLast hj)

/-- An edge between two reachable instructions that are no loop heads. -/
def PlainAdj (g : Graph n) (i j : Fin n) : Prop :=
  g.Adj i j ∧ (g.FromEntry i ∧ g.isLoopHead i = false) ∧ g.FromEntry j ∧ g.isLoopHead j = false

theorem CyclesHeaded.wellFounded (h : g.CyclesHeaded) : WellFounded g.PlainAdj := by
  have hirrefl : Std.Irrefl (Relation.TransGen g.PlainAdj) := by
    refine ⟨fun i hi => ?_⟩
    obtain ⟨l, hcycle, hil, hall⟩ :=
      exists_cycle (P := fun i => g.FromEntry i ∧ g.isLoopHead i = false) hi
    obtain ⟨k, hk, hhead⟩ := h l hcycle ⟨i, hil, (hall i hil).1⟩
    rw [(hall k hk).2] at hhead
    exact Bool.false_ne_true hhead
  exact Subrelation.wf Relation.TransGen.single
    (Finite.wellFounded_of_trans_of_irrefl (Relation.TransGen g.PlainAdj))

section Search

variable (next : Fin n → List (Fin n))

theorem explore_of_seen (pending : List (Fin n)) (seen : Vector Bool n) {j : Fin n}
    (h : seen.get j = true) : (explore next pending seen).get j = true := by
  fun_induction explore next pending seen with
  | case1 => exact h
  | case2 seen i rest hi ih => exact ih h
  | case3 seen i rest hi ih =>
    apply ih
    rw [Vector.get_set]
    split
    · rfl
    · exact h

theorem explore_of_pending (pending : List (Fin n)) (seen : Vector Bool n) {j : Fin n}
    (h : j ∈ pending) : (explore next pending seen).get j = true := by
  fun_induction explore next pending seen with
  | case1 => cases h
  | case2 seen i rest hi ih =>
    rcases List.mem_cons.mp h with rfl | h
    · exact explore_of_seen next rest seen hi
    · exact ih h
  | case3 seen i rest hi ih =>
    rcases List.mem_cons.mp h with rfl | h
    · exact explore_of_seen next _ _ (Vector.get_set_self seen j true)
    · exact ih (List.mem_append_right _ h)

/-- What the search marks, it follows. -/
theorem explore_closed (pending : List (Fin n)) (seen : Vector Bool n) {i j : Fin n}
    (hi : (explore next pending seen).get i = true) (hs : seen.get i = false) (hj : j ∈ next i) :
    (explore next pending seen).get j = true := by
  fun_induction explore next pending seen with
  | case1 => rw [hs] at hi; cases hi
  | case2 seen k rest hk ih => exact ih hi hs
  | case3 seen k rest hk ih =>
    by_cases hik : i = k
    · subst hik
      exact explore_of_pending next _ _ (List.mem_append_left _ hj)
    · exact ih hi (by rwa [Vector.get_set_of_ne _ _ hik])

/-- What is marked has every property that holds at the start and that unmarked nodes pass on. -/
theorem explore_induction {P : Fin n → Prop} (pending : List (Fin n)) (seen : Vector Bool n)
    (hnext : ∀ i, seen.get i = false → P i → ∀ j ∈ next i, P j) (hpending : ∀ i ∈ pending, P i)
    (hseen : ∀ i, seen.get i = true → P i) {i : Fin n}
    (hi : (explore next pending seen).get i = true) : P i := by
  fun_induction explore next pending seen with
  | case1 => exact hseen i hi
  | case2 seen k rest hk ih =>
    exact ih hnext (fun j hj => hpending j (List.mem_cons_of_mem k hj)) hseen hi
  | case3 seen k rest hk ih =>
    have hP : P k := hpending k List.mem_cons_self
    refine ih (fun j hj => ?_) (fun j hj => ?_) (fun j hj => ?_) hi
    · rw [Vector.get_set] at hj
      split at hj
      · cases hj
      · exact hnext j hj
    · rcases List.mem_append.mp hj with hj | hj
      · exact hnext k (Bool.eq_false_iff.mpr hk) hP j hj
      · exact hpending j (List.mem_cons_of_mem k hj)
    · by_cases hjk : j = k
      · exact hjk ▸ hP
      · rw [Vector.get_set_of_ne _ _ hjk] at hj
        exact hseen j hj

end Search

end Lifespan.Graph
