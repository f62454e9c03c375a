import Lifespan.Proofs.Consistency
import Lifespan.Proofs.Execution
import Lifespan.Proofs.FinMap

namespace Lifespan

open Dataflow

namespace References

variable {r r' : References} {x y : String} {site a : Site}

/-- The allocation is one that the reference may denote. -/
def MayBe (r : References) (x : String) (a : Site) : Prop := a ∈ (r.denoted x).elems

theorem mayBe_insert_self {s : FinSet Site} : MayBe (r.insert x s) x a ↔ a ∈ s.elems := by
  rw [MayBe, denoted, FinMap.get?_insert_self]
  rfl

theorem mayBe_insert_of_ne {s : FinSet Site} (h : y ≠ x) : MayBe (r.insert x s) y a ↔
    r.MayBe y a := by
  have hne : compare y x ≠ .eq := fun heq => h (Std.LawfulEqCmp.eq_of_compare heq)
  rw [MayBe, MayBe, denoted, denoted, FinMap.get?_insert_of_ne r s hne]

/-- A union of facts, with either function that the domain uses to combine them. -/
theorem mayBe_merge {f : FinSet Site → FinSet Site → FinSet Site}
    (hf : ∀ s t a, a ∈ (f s t).elems ↔ a ∈ s.elems ∨ a ∈ t.elems) :
    MayBe (FinMap.merge f r r') x a ↔ r.MayBe x a ∨ r'.MayBe x a := by
  have hempty : a ∉ FinSet.elems (FinMap.empty : FinSet Site) := FinSet.not_mem_elems_empty a
  rw [MayBe, MayBe, MayBe, denoted, denoted, denoted, FinMap.get?_merge]
  cases r.get? x <;> cases r'.get? x <;> simp [FinMap.combine, hf, hempty]

theorem upperBounds :
    UpperBounds fun r r' : References => ∀ x a, r.MayBe x a → r'.MayBe x a where
  refl _ _ _ h := h
  trans hab hbc x a h := hbc x a (hab x a h)
  same_refl a := by simp [AbstractDomain.same]
  le_join_left r r' x a h := (mayBe_merge fun s t => FinSet.mem_elems_merge _ s t).mpr (.inl h)
  le_join_right r r' x a h := (mayBe_merge fun s t => FinSet.mem_elems_merge _ s t).mpr (.inr h)
  le_widen_left r r' x a h := (mayBe_merge fun s t => FinSet.mem_elems_merge _ s t).mpr (.inl h)
  le_widen_right r r' x a h := (mayBe_merge fun s t => FinSet.mem_elems_merge _ s t).mpr (.inr h)

end References

/-- Every object that a reference denotes was allocated where the facts say. -/
def Machine.Traced {n : Nat} (σ : Machine n) (method : Nat) (r : References) : Prop :=
  ∀ x o, σ.refs x = some o → ∃ a, σ.allocations[o]? = some a ∧ r.MayBe x ⟨method, a⟩

namespace Machine.Traced

variable {n method : Nat} {σ τ : Machine n} {r r' : References}

theorem mono (h : σ.Traced method r) (hr : ∀ x a, r.MayBe x a → r'.MayBe x a) :
    σ.Traced method r' := by
  intro x o ho
  obtain ⟨a, ha, hmay⟩ := h x o ho
  exact ⟨a, ha, hr x _ hmay⟩

theorem congr (h : σ.Traced method r) (hrefs : τ.refs = σ.refs)
    (halloc : τ.allocations = σ.allocations) : τ.Traced method r := by
  intro x o ho
  rw [hrefs] at ho
  rw [halloc]
  exact h x o ho

/-- A reference takes over what its new value denotes; the others stay. -/
theorem assign (h : σ.Traced method r) {x : String} {s : FinSet Site}
    (hself : ∀ o, τ.refs x = some o → ∃ a, τ.allocations[o]? = some a ∧
      (⟨method, a⟩ : Site) ∈ s.elems)
    (hother : ∀ y, y ≠ x → τ.refs y = σ.refs y)
    (halloc : ∀ (o : Nat) a, σ.allocations[o]? = some a → τ.allocations[o]? = some a) :
    τ.Traced method (r.insert x s) := by
  intro y o ho
  by_cases hy : y = x
  · subst hy
    obtain ⟨a, ha, hmem⟩ := hself o ho
    exact ⟨a, ha, References.mayBe_insert_self.mpr hmem⟩
  · rw [hother y hy] at ho
    obtain ⟨a, ha, hmay⟩ := h y o ho
    exact ⟨a, halloc o a ha, (References.mayBe_insert_of_ne hy).mpr hmay⟩

theorem setRef (h : σ.Traced method r) (x : String) (value : Expr) :
    (σ.setRef x value).Traced method (r.insert x (r.value ⟨method, σ.pc⟩ value)) := by
  cases value with
  | new | newArray =>
    apply h.assign
    · intro o ho
      -- the new object is numbered by how many there were
      obtain rfl : σ.allocations.length = o := by
        simpa [Machine.setRef, Function.update_self] using ho
      refine ⟨σ.pc, List.getElem?_concat_length, ?_⟩
      exact (FinSet.mem_elems_single _ _).mpr rfl
    · intro y hy
      exact Function.update_of_ne hy _ _
    · intro o a ha
      exact List.getElem?_append_left (List.getElem?_eq_some_iff.mp ha).1 ▸ ha
  | var z =>
    apply h.assign
    · intro o ho
      have hz : σ.refs z.name = some o := by
        simpa [Machine.setRef, Function.update_self] using ho
      exact h z.name o hz
    · intro y hy
      exact Function.update_of_ne hy _ _
    · exact fun o a ha => ha
  | _ =>
    apply h.assign
    · intro o ho
      simp [Machine.setRef, Function.update_self] at ho
    · intro y hy
      exact Function.update_of_ne hy _ _
    · exact fun o a ha => ha

/-- Facts about a machine are turned into facts about what an instruction makes of it. -/
theorem after (h : σ.Traced method r) {s : Settings} {args : Nat → Int} {instr : Instr n} {e : Edge}
    (effect : Effect s args σ instr e τ) : τ.Traced method (r.after ⟨method, σ.pc⟩ instr) := by
  cases effect with
  | assignInt ty value =>
    rw [References.after, if_neg (by simp [ty, Ty.isReference])]
    exact h.congr rfl rfl
  | assignRef value ty =>
    rw [References.after, if_pos ty]
    exact h.setRef _ value
  | @assignOther target value hdouble =>
    cases target with
    | var x =>
      rw [References.after, if_neg (by simp [hdouble x rfl, Ty.isReference])]
      exact h
    | _ => exact h
  | construct => exact h.congr rfl rfl
  | _ => exact h

end Machine.Traced

/-- What an instruction makes of the facts before it holds along its edges. -/
theorem Body.mayBe_of_edge {b : Body} {method fuel : Nat} {sol : Solution References b.size}
    (hsol : ((b.pointsToProblem method).solve fuel).result = .ok sol) {i j : Fin b.size} {e : Edge}
    (he : (j, e) ∈ b.graph.successors i) {x : String} {a : Site}
    (h : ((sol.nodes.get i).incoming.after ⟨method, i⟩ (b.code.get i)).MayBe x a) :
    (sol.nodes.get j).incoming.MayBe x a := by
  have hset := Problem.settled_of_solve References.upperBounds.same_refl hsol
  obtain ⟨out, hout, hsame⟩ := (hset i).produced
  obtain rfl := Except.ok.inj hout
  have hstored := hsame e _ (by cases e <;> rfl)
  have heq : (sol.nodes.get i).out e = _ := of_decide_eq_true hstored
  apply References.upperBounds.edge_le_incoming (hset j) he
  rwa [heq]

theorem Body.Reachable.traced {b : Body} {s : Settings} {args : Nat → Int} {method fuel : Nat}
    {sol : Solution References b.size}
    (hsol : ((b.pointsToProblem method).solve fuel).result = .ok sol) {σ : Machine b.size}
    (hσ : b.Reachable s args σ) : σ.Traced method (sol.nodes.get σ.pc).incoming := by
  induction hσ with
  | start h =>
    intro x o ho
    rw [h.refs] at ho
    cases ho
  | @step σ τ e _ h ih =>
    have hadj := h.adj
    obtain ⟨effect, leads⟩ := h
    apply Machine.Traced.mono _ fun x a => mayBe_of_edge hsol hadj
    exact (ih.after effect).congr rfl rfl

namespace PointsTo

variable {c : Class} {p : PointsTo} {id : Nat}

/-- The facts of each method are kept under its number. -/
theorem methods_of_ofClass (hp : (ofClass c).result = .ok p) :
    c.methods.zipIdx.mapM (fun (m, id) => (ofMethod m id).result) = .ok p.methods := by
  obtain ⟨methods, hmethods, h⟩ := Logged.result_bind_ok.mp hp
  obtain rfl := Except.ok.inj h
  rwa [Logged.result_mapM] at hmethods

theorem getElem?_methods (hp : (ofClass c).result = .ok p) {m : Method}
    (hm : c.methods[id]? = some m) :
    ∃ states, p.methods[id]? = some states ∧ (ofMethod m id).result = .ok states := by
  have hzip : c.methods.zipIdx[id]? = some (m, id) := by simp [hm]
  exact Except.exists_getElem?_of_mapM (methods_of_ofClass hp) hzip

/-- Within a body the facts are those that flow in; there are none past its end. -/
theorem nodesAt_eq (hp : (ofClass c).result = .ok p) {m : Method} {b : Body}
    (hm : c.methods[id]? = some m) (hb : m.body = some b) :
    ∃ sol, ((b.pointsToProblem id).solve b.pointsToFuel).result = .ok sol ∧
      (∀ (i : Fin b.size) x, p.nodesAt ⟨id, i⟩ x = (sol.nodes.get i).incoming.denoted x.name) ∧
      ∀ i, b.size ≤ i → ∀ x, p.nodesAt ⟨id, i⟩ x = FinMap.empty := by
  obtain ⟨states, hstates, hof⟩ := getElem?_methods hp hm
  simp only [ofMethod, hb] at hof
  obtain ⟨sol, hsol, hof⟩ := Logged.result_bind_ok.mp hof
  obtain ⟨-, -, hof⟩ := Logged.result_bind_ok.mp hof
  obtain rfl := Except.ok.inj hof
  refine ⟨sol, hsol, fun i x => ?_, fun i hi x => ?_⟩
  · simp [nodesAt, hstates, Vector.get_eq_getElem]
  · simp [nodesAt, hstates, hi]

/-- Nothing is known of a method that has no body or does not exist. -/
theorem nodesAt_of_no_body (hp : (ofClass c).result = .ok p)
    (h : c.methods[id]?.bind Method.body = none) (i : Nat) (x : Local) :
    p.nodesAt ⟨id, i⟩ x = FinMap.empty := by
  cases hm : c.methods[id]? with
  | none =>
    have hlen := Except.length_of_mapM (methods_of_ofClass hp)
    rw [List.length_zipIdx] at hlen
    have hnone : p.methods[id]? = none := by
      rw [List.getElem?_eq_none_iff] at hm ⊢
      omega
    simp [nodesAt, hnone]
  | some m =>
    obtain ⟨states, hstates, hof⟩ := getElem?_methods hp hm
    rw [hm, Option.bind_some] at h
    simp only [ofMethod, h] at hof
    obtain rfl := Except.ok.inj hof
    simp [nodesAt, hstates]

/-- The oracle of a class knows the allocation of every object that a local denotes. -/
theorem mem_nodesAt (hp : (ofClass c).result = .ok p) {m : Method} {b : Body}
    (hm : c.methods[id]? = some m) (hb : m.body = some b) {s : Settings} {args : Nat → Int}
    {σ : Machine b.size} (hσ : b.Reachable s args σ) {x : Local} {o : Nat}
    (ho : σ.refs x.name = some o) :
    ∃ a, σ.allocations[o]? = some a ∧ (⟨id, a⟩ : Site) ∈ (p.nodesAt ⟨id, σ.pc⟩ x).elems := by
  obtain ⟨sol, hsol, hnodes, -⟩ := nodesAt_eq hp hm hb
  obtain ⟨a, ha, hmay⟩ := hσ.traced hsol x.name o ho
  rw [hnodes]
  exact ⟨a, ha, hmay⟩

end PointsTo

end Lifespan
