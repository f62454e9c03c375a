import Lifespan.Proofs.Growth
import Lifespan.Proofs.Locals
import Lifespan.Proofs.PointsTo
import Lifespan.Proofs.Semilattice
import Mathlib

namespace Lifespan

open Dataflow

/-- What makes a new object. -/
def Code.Expr.isAllocation {V P : Type} : Code.Expr V P → Bool
  | .new _ | .newArray .. => true
  | _ => false

/-- The reference that an instruction rebinds, and the value it gets. -/
def Code.Instr.rebinds? {P T : Type} : Code.Instr Local P T → Option (Local × Code.Expr Local P)
  | .assign (.var x) e => if x.ty.isReference then some (x, e) else none
  | _ => none

theorem Code.Instr.rebinds?_eq_some {P T : Type} {instr : Code.Instr Local P T} {x : Local}
    {e : Code.Expr Local P} :
    instr.rebinds? = some (x, e) ↔ instr = .assign (.var x) e ∧ x.ty.isReference = true := by
  unfold rebinds?
  split
  case h_1 y f =>
    by_cases hy : y.ty.isReference = true
    · simp only [hy, if_true, Option.some.injEq, Prod.mk.injEq, assign.injEq, Place.var.injEq]
      constructor
      · rintro ⟨rfl, rfl⟩
        exact ⟨⟨rfl, rfl⟩, hy⟩
      · exact And.left
    · simp only [hy, Bool.false_eq_true, if_false, reduceCtorEq, assign.injEq,
        Place.var.injEq, false_iff]
      rintro ⟨⟨rfl, -⟩, hx⟩
      exact hy hx
  case h_2 hno =>
    simp only [reduceCtorEq, false_iff]
    rintro ⟨rfl, -⟩
    exact hno x e rfl

namespace References

variable {n : Nat} {r r' : References} {x y : String} {site a : Site} {instr : Instr n}

theorem after_eq (r : References) (site : Site) (instr : Instr n) :
    r.after site instr = instr.rebinds?.elim r fun s => r.insert s.1.name (r.value site s.2) := by
  cases instr with
  | assign target e =>
    cases target with
    | var x => by_cases hx : x.ty.isReference = true <;> simp [after, Code.Instr.rebinds?, hx]
    | _ => rfl
  | _ => rfl

theorem mem_value {e : Expr} : a ∈ (r.value site e).elems ↔
    e.isAllocation = true ∧ a = site ∨ ∃ z, e = .var z ∧ r.MayBe z.name a := by
  cases e <;> simp [value, Code.Expr.isAllocation, FinSet.mem_elems_single,
    FinSet.not_mem_elems_empty, MayBe]

theorem mayBe_after : (r.after site instr).MayBe y a ↔
    (∃ x e, instr.rebinds? = some (x, e) ∧ x.name = y ∧ a ∈ (r.value site e).elems) ∨
    (∀ x e, instr.rebinds? = some (x, e) → x.name ≠ y) ∧ r.MayBe y a := by
  rw [after_eq]
  cases instr.rebinds? with
  | none => simp
  | some s =>
    obtain ⟨x, e⟩ := s
    by_cases hy : x.name = y
    · subst hy
      simp [mayBe_insert_self]
    · simp [hy, mayBe_insert_of_ne (Ne.symm hy)]

/-- The names that are bound, and for each of them what it may denote. -/
def facts (r : References) : Finset (String × Option Site) :=
  (r.keys.flatMap fun x => (x, none) :: (r.denoted x).elems.map fun a => (x, some a)).toFinset

theorem facts_eq (r : References) : r.facts = FinMap.facts r := rfl

theorem mem_facts_none : (x, none) ∈ r.facts ↔ (r.get? x).isSome = true := by
  rw [facts_eq, FinMap.mem_facts]
  cases r.get? x <;> simp

theorem mem_facts_some : (x, some a) ∈ r.facts ↔ r.MayBe x a := by
  rw [facts_eq, FinMap.mem_facts, MayBe, denoted]
  cases r.get? x <;> simp [FinSet.not_mem_elems_empty]

theorem facts_subset_iff : r.facts ⊆ r'.facts ↔
    (∀ x, (r.get? x).isSome = true → (r'.get? x).isSome = true) ∧ ∀ x a, r.MayBe x a →
    r'.MayBe x a := by
  constructor
  · intro h
    exact ⟨fun x hx => mem_facts_none.mp (h (mem_facts_none.mpr hx)),
      fun x a ha => mem_facts_some.mp (h (mem_facts_some.mpr ha))⟩
  · rintro ⟨hkey, hmay⟩ ⟨x, o⟩ hx
    cases o with
    | none => exact mem_facts_none.mpr (hkey x (mem_facts_none.mp hx))
    | some a => exact mem_facts_some.mpr (hmay x a (mem_facts_some.mp hx))

/-- Nothing but its facts counts about a state. -/
theorem facts_inj : r.facts = r'.facts ↔ r = r' := FinMap.facts_injective.eq_iff

theorem facts_join (r r' : References) : (AbstractDomain.join r r').facts = r.facts ∪ r'.facts :=
  FinMap.facts_join r r'

theorem get?_after : ((r.after site instr).get? y).isSome = true ↔
    (∃ x e, instr.rebinds? = some (x, e) ∧ x.name = y) ∨ (r.get? y).isSome = true := by
  rw [after_eq]
  cases instr.rebinds? with
  | none => simp
  | some s =>
    obtain ⟨x, e⟩ := s
    by_cases hy : x.name = y
    · subst hy
      simp [FinMap.get?_insert_self]
    · have hne : compare y x.name ≠ .eq := fun heq => hy (Std.LawfulEqCmp.eq_of_compare heq).symm
      simp [hy, FinMap.get?_insert_of_ne r _ hne]

theorem facts_after_mono (h : r.facts ⊆ r'.facts) :
    (r.after site instr).facts ⊆ (r'.after site instr).facts := by
  obtain ⟨hkey, hmay⟩ := facts_subset_iff.mp h
  have hvalue : ∀ e a, a ∈ (r.value site e).elems → a ∈ (r'.value site e).elems := by
    intro e a ha
    rw [mem_value] at ha ⊢
    exact ha.imp_right fun ⟨z, hz, hza⟩ => ⟨z, hz, hmay _ _ hza⟩
  refine facts_subset_iff.mpr ⟨fun y hy => ?_, fun y a ha => ?_⟩
  · rw [get?_after] at hy ⊢
    exact hy.imp_right (hkey y)
  · rw [mayBe_after] at ha ⊢
    refine ha.imp ?_ (And.imp_right (hmay y a))
    rintro ⟨x, e, hx, hxy, ha⟩
    exact ⟨x, e, hx, hxy, hvalue e a ha⟩

end References

namespace Body

variable {b : Body} {method : Nat}

/-- All that can be known in a body: the names it rebinds, and the positions it has. -/
def allFacts (b : Body) (method : Nat) : Finset (String × Option Site) :=
  ((List.finRange b.size).filterMap fun i => (b.code.get i).rebinds?.map (·.1.name)).toFinset ×ˢ
    Finset.insertNone ((List.finRange b.size).map fun i => (⟨method, i⟩ : Site)).toFinset

theorem mem_allFacts_none {x : String} :
    (x, none) ∈ b.allFacts method ↔
    ∃ i y e, (b.code.get i).rebinds? = some (y, e) ∧ y.name = x := by
  simp [allFacts]

theorem mem_allFacts_some {x : String} {a : Site} :
    (x, some a) ∈ b.allFacts method ↔
    (x, none) ∈ b.allFacts method ∧ ∃ i : Fin b.size, a = ⟨method, i⟩ := by
  simp [allFacts, eq_comm]

theorem card_allFacts_le (b : Body) (method : Nat) :
    (b.allFacts method).card ≤ b.size * (b.size + 1) := by
  rw [allFacts, Finset.card_product, Finset.card_insertNone]
  apply Nat.mul_le_mul
  · calc _ ≤ _ := List.toFinset_card_le _
      _ ≤ (List.finRange b.size).length := List.length_filterMap_le _ _
      _ = b.size := List.length_finRange
  · apply Nat.add_le_add_right
    calc _ ≤ _ := List.toFinset_card_le _
      _ = b.size := by simp

theorem facts_after_subset {r : References} (h : r.facts ⊆ b.allFacts method) (i : Fin b.size) :
    (r.after ⟨method, i⟩ (b.code.get i)).facts ⊆ b.allFacts method := by
  have hbound : ∀ {x e}, (b.code.get i).rebinds? = some (x, e) → (x.name, none) ∈
      b.allFacts method :=
    fun hx => mem_allFacts_none.mpr ⟨i, _, _, hx, rfl⟩
  rintro ⟨y, o⟩ hy
  cases o with
  | none =>
    rcases References.get?_after.mp (References.mem_facts_none.mp hy) with ⟨x, e, hx, rfl⟩ | hy
    · exact hbound hx
    · exact h (References.mem_facts_none.mpr hy)
  | some a =>
    rcases References.mayBe_after.mp (References.mem_facts_some.mp hy) with ⟨x, e, hx,
      rfl, ha⟩ | ⟨-, hy⟩
    · refine mem_allFacts_some.mpr ⟨hbound hx, ?_⟩
      rcases References.mem_value.mp ha with ⟨-, rfl⟩ | ⟨z, -, hz⟩
      · exact ⟨i, rfl⟩
      · exact (mem_allFacts_some.mp (h (References.mem_facts_some.mpr hz))).2
    · exact h (References.mem_facts_some.mpr hy)

theorem pointsTo_collects (b : Body) (method : Nat) :
    Collects (b.pointsToProblem method) References.facts (b.allFacts method)
      fun i r => r.after ⟨method, i⟩ (b.code.get i) where
  transfer _ _ := rfl
  threshold := rfl
  same r r' := by
    rw [References.facts_inj]
    exact decide_eq_true_iff
  join := References.facts_join
  bottom := rfl
  entry := Finset.empty_subset _
  mono _ _ _ h := References.facts_after_mono h
  step i _ h := facts_after_subset h i

/-- The analysis of a body ends, whatever its control flow. -/
theorem exists_pointsTo (b : Body) (method : Nat) :
    ∃ sol, (b.pointsTo method).result = .ok sol := by
  apply (b.pointsTo_collects method).solve_ok (Graph.length_successors_ofCode b.code)
  have hcard := Nat.mul_le_mul_left b.size (b.card_allFacts_le method)
  calc b.size + 2 * (b.size * (b.allFacts method).card)
      ≤ b.size + 2 * (b.size * (b.size * (b.size + 1))) := by omega
    _ = b.pointsToFuel := by rw [pointsToFuel, Nat.mul_assoc]

/-- `p` makes a new object and binds the reference `x` to it. -/
def Allocates (b : Body) (p : Fin b.size) (x : String) : Prop :=
  ∃ y e, b.code.get p = .assign (.var y) e ∧ y.name = x ∧ y.ty.isReference = true ∧
    e.isAllocation = true

def Assigns (b : Body) (q : Fin b.size) (x : String) : Prop :=
  ∃ y e, b.code.get q = .assign (.var y) e ∧ y.name = x

/-- `q` copies `x` into the reference `y`. -/
def Copies (b : Body) (q : Fin b.size) (x y : String) : Prop :=
  ∃ z w, b.code.get q = .assign (.var w) (.var z) ∧ z.name = x ∧ w.name = y ∧
    w.ty.isReference = true

/-- A path leads from the allocation at `p` to an instruction and takes the new object into a local:
each step keeps the local that holds it, or copies that into the next one. -/
inductive CopyChain (b : Body) (p : Fin b.size) : Fin b.size → String → Prop
  | new {i : Fin b.size} {x : String} (allocates : b.Allocates p x) (edge : b.graph.Adj p i) :
    CopyChain b p i x
  | keep {q i : Fin b.size} {x : String} (chain : CopyChain b p q x) (edge : b.graph.Adj q i)
    (kept : ¬ b.Assigns q x) : CopyChain b p i x
  | copy {q i : Fin b.size} {x y : String} (chain : CopyChain b p q x) (edge : b.graph.Adj q i)
    (copied : b.Copies q x y) : CopyChain b p i y

/-- What is passed on is in a reference. -/
theorem CopyChain.exists_reference {p i : Fin b.size} {x : String} (h : b.CopyChain p i x) :
    ∃ q y e, b.code.get q = .assign (.var y) e ∧ y.name = x ∧ y.ty.isReference = true := by
  induction h with
  | @new i x allocates _ =>
    obtain ⟨y, e, hcode, hname, hty, -⟩ := allocates
    exact ⟨p, y, e, hcode, hname, hty⟩
  | keep _ _ _ ih => exact ih
  | @copy q _ _ _ _ _ copied _ =>
    obtain ⟨z, w, hcode, -, hname, hty⟩ := copied
    exact ⟨q, w, _, hcode, hname, hty⟩

theorem CopyChain.not_assigns (hb : b.Typed) {p i q : Fin b.size} {x : String}
    (h : b.CopyChain p i x) (hq : ∀ y e, (b.code.get q).rebinds? = some (y, e) → y.name ≠ x) :
    ¬ b.Assigns q x := by
  rintro ⟨y, e, hcode, hy⟩
  -- the object is in a reference of this name, so the target has the same type and is rebound
  obtain ⟨k, z, f, hcode', hz, hty⟩ := h.exists_reference
  have htypes : y.ty = z.ty := by
    apply hb q k y _ z _ (hy.trans hz.symm)
    · simp [hcode, Code.Instr.locals, Code.Place.locals]
    · simp [hcode', Code.Instr.locals, Code.Place.locals]
  exact hq y e (Code.Instr.rebinds?_eq_some.mpr ⟨hcode, htypes ▸ hty⟩) hy

/-- Facts that come from chains become facts that come from chains one step longer. -/
theorem exists_copyChain_of_after (hb : b.Typed) {i j : Fin b.size}
    (hij : b.graph.Adj i j) {r : References}
    (hr : ∀ x a, r.MayBe x a → ∃ p : Fin b.size, a = ⟨method, p⟩ ∧ b.CopyChain p i x) {x : String}
    {a : Site} (ha : (r.after ⟨method, i⟩ (b.code.get i)).MayBe x a) :
    ∃ p : Fin b.size, a = ⟨method, p⟩ ∧ b.CopyChain p j x := by
  rcases References.mayBe_after.mp ha with ⟨y, e, hy, hyx, hvalue⟩ | ⟨hother, ha⟩
  · obtain ⟨hcode, hty⟩ := Code.Instr.rebinds?_eq_some.mp hy
    rcases References.mem_value.mp hvalue with ⟨halloc, rfl⟩ | ⟨z, rfl, hz⟩
    · exact ⟨i, rfl, .new ⟨y, e, hcode, hyx, hty, halloc⟩ hij⟩
    · obtain ⟨p, hp, hchain⟩ := hr _ _ hz
      exact ⟨p, hp, .copy hchain hij ⟨z, y, hcode, rfl, hyx, hty⟩⟩
  · obtain ⟨p, hp, hchain⟩ := hr _ _ ha
    exact ⟨p, hp, .keep hchain hij (hchain.not_assigns hb hother)⟩

/-- Every fact in the states comes from a chain. -/
structure Justified (b : Body) (method : Nat) (s : Iteration References b.size) : Prop where
  incoming : ∀ i x a, (s.nodes.get i).incoming.MayBe x a →
    ∃ p : Fin b.size, a = ⟨method, p⟩ ∧ b.CopyChain p i x
  out : ∀ i e x a, ((s.nodes.get i).out e).MayBe x a → ∀ j, b.graph.Adj i j →
    ∃ p : Fin b.size, a = ⟨method, p⟩ ∧ b.CopyChain p j x

theorem not_mayBe_empty (x : String) (a : Site) : ¬ References.MayBe FinMap.empty x a :=
  FinSet.not_mem_elems_empty a

theorem justified_start (b : Body) (method : Nat) :
    b.Justified method (b.pointsToProblem method).start where
  incoming i x a h := by
    simp only [Problem.start, Vector.get_replicate] at h
    exact absurd h (not_mayBe_empty x a)
  out i e x a h := by
    simp only [Problem.start, Vector.get_replicate] at h
    cases e <;> exact absurd h (not_mayBe_empty x a)

theorem Justified.merge {s : Iteration References b.size}
    (hs : b.Justified method s) (i : Fin b.size) {x : String} {a : Site}
    (h : ((b.pointsToProblem method).merge s.nodes i).MayBe x a) :
    ∃ p : Fin b.size, a = ⟨method, p⟩ ∧ b.CopyChain p i x := by
  rw [← References.mem_facts_some, (b.pointsTo_collects method).mem_merge] at h
  rcases h with h | ⟨j, e, he, h⟩
  · have hempty : (b.pointsToProblem method).initial i = FinMap.empty := ite_self _
    rw [hempty, References.mem_facts_some] at h
    exact absurd h (not_mayBe_empty x a)
  · exact hs.out j e x a (References.mem_facts_some.mp h) i (Graph.adj_iff.mpr ⟨e, he⟩)

theorem Justified.update (hb : b.Typed) {s : Iteration References b.size} {i : Fin b.size}
    {out : Outflow References} (hs : b.Justified method s)
    (ho : (b.pointsToProblem method).transfer i ((b.pointsToProblem method).arriving s i) =
      .ok out) :
    b.Justified method ((b.pointsToProblem method).update s i out) where
  incoming j x a h := by
    by_cases hji : j = i
    · subst hji
      rw [Problem.update_node_self, Problem.nodeAt, (b.pointsTo_collects method).arriving_eq] at h
      exact hs.merge j h
    · rw [Problem.update_node_of_ne hji] at h
      exact hs.incoming j x a h
  out j e x a h k hjk := by
    by_cases hji : j = i
    · subst hji
      rw [← References.mem_facts_some, Collects.facts_update_self (b.pointsTo_collects method) ho,
        References.mem_facts_some] at h
      exact exists_copyChain_of_after hb hjk (fun _ _ => hs.merge j) h
    · rw [Problem.update_node_of_ne hji] at h
      exact hs.out j e x a h k hjk

variable {fuel : Nat} {sol : Solution References b.size}
  (hsol : ((b.pointsToProblem method).solve fuel).result = .ok sol)

include hsol

theorem exists_copyChain_of_mayBe (hb : b.Typed) {i : Fin b.size} {x : String} {a : Site}
    (h : (sol.nodes.get i).incoming.MayBe x a) :
    ∃ p : Fin b.size, a = ⟨method, p⟩ ∧ b.CopyChain p i x := by
  obtain ⟨vs, t, hv, -, rfl⟩ := Problem.Visits.exists_of_run hsol
  have hjustified : b.Justified method t :=
    hv.preserves (fun _ _ _ _ ho hs => hs.update hb ho) (b.justified_start method)
  exact hjustified.incoming i x a h

theorem CopyChain.mayBe {p i : Fin b.size} {x : String} (h : b.CopyChain p i x) :
    (sol.nodes.get i).incoming.MayBe x ⟨method, p⟩ := by
  induction h with
  | @new i x allocates edge =>
    obtain ⟨y, e, hcode, hname, hty, halloc⟩ := allocates
    obtain ⟨k, hk⟩ := Graph.adj_iff.mp edge
    apply mayBe_of_edge hsol hk
    exact References.mayBe_after.mpr
      (.inl ⟨y, e, Code.Instr.rebinds?_eq_some.mpr ⟨hcode, hty⟩, hname, References.mem_value.mpr
        (.inl ⟨halloc, rfl⟩)⟩)
  | keep _ edge kept ih =>
    obtain ⟨k, hk⟩ := Graph.adj_iff.mp edge
    apply mayBe_of_edge hsol hk
    refine References.mayBe_after.mpr (.inr ⟨fun y e hy hname => ?_, ih⟩)
    exact kept ⟨y, e, (Code.Instr.rebinds?_eq_some.mp hy).1, hname⟩
  | copy _ edge copied ih =>
    obtain ⟨z, w, hcode, rfl, hname, hty⟩ := copied
    obtain ⟨k, hk⟩ := Graph.adj_iff.mp edge
    apply mayBe_of_edge hsol hk
    exact References.mayBe_after.mpr
      (.inl ⟨w, _, Code.Instr.rebinds?_eq_some.mpr ⟨hcode, hty⟩, hname, References.mem_value.mpr
        (.inr ⟨z, rfl, ih⟩)⟩)

end Body

namespace PointsTo

theorem exists_ofClass (c : Class) : ∃ p, (ofClass c).result = .ok p := by
  have hmethods : ∀ s ∈ c.methods.zipIdx, ∃ states, (ofMethod s.1 s.2).result = .ok states := by
    rintro ⟨m, id⟩ -
    cases hb : m.body with
    | none => exact ⟨#[], by simp [ofMethod, hb]⟩
    | some b =>
      obtain ⟨sol, hsol⟩ := b.exists_pointsTo id
      refine ⟨sol.nodes.toArray.map Node.incoming, ?_⟩
      simp only [ofMethod, hb]
      exact Logged.result_bind_ok.mpr ⟨sol, hsol, Logged.result_bind_ok.mpr ⟨(), rfl, rfl⟩⟩
  obtain ⟨methods, hok⟩ := Except.exists_mapM_eq_ok hmethods
  refine ⟨⟨methods⟩, Logged.result_bind_ok.mpr ⟨methods, ?_, rfl⟩⟩
  rw [Logged.result_mapM]
  exact hok

/-- The analysis of an accepted class ends, and it is exact for copies: a local may denote the
allocation at `q` before `i` exactly if a chain of copies leads from `q` to `i` and the local.
Outside of bodies nothing is known. -/
theorem mem_nodesAt_iff_copyChain (src : SourceClass) (c : Class) (h : src.resolve = .ok c) :
    ∃ p, (ofClass c).result = .ok p ∧
      (∀ id m b, c.methods[id]? = some m → m.body = some b →
        (∀ (i : Fin b.size) (x : Local) (a : Site), a ∈ (p.nodesAt ⟨id, i⟩ x).elems ↔
          ∃ q : Fin b.size, a = ⟨id, q⟩ ∧ b.CopyChain q i x.name) ∧
        ∀ i, b.size ≤ i → ∀ x, (p.nodesAt ⟨id, i⟩ x).elems = []) ∧
      ∀ id, c.methods[id]?.bind Method.body = none → ∀ i x, (p.nodesAt ⟨id, i⟩ x).elems = [] := by
  obtain ⟨p, hp⟩ := exists_ofClass c
  refine ⟨p, hp, fun id m b hm hb => ?_, fun id hnone i x => ?_⟩
  · obtain ⟨sol, hsol, hwithin, hpast⟩ := nodesAt_eq hp hm hb
    have htyped := SourceClass.typed_of_resolve h (List.mem_of_getElem? hm) hb
    refine ⟨fun i x a => ?_, fun i hi x => ?_⟩
    · rw [hwithin]
      constructor
      · exact Body.exists_copyChain_of_mayBe hsol htyped
      · rintro ⟨q, rfl, hchain⟩
        exact hchain.mayBe hsol
    · rw [hpast i hi]
      rfl
  · rw [nodesAt_of_no_body hp hnone]
    rfl

/-- The entry jumps over an allocation into a loop, so the allocation is never reached. -/
def detourSource : SourceClass where
  name := "Detour"
  methods := [{
    name := "run"
    params := []
    locals := (FinMap.empty.insert "a" (.object "Interval")).insert "b" (.object "Interval")
    body := some [
      .goto 2,
      .assign (.var "a") (.new "Interval"),
      .assign (.var "b") (.var "a"),
      .goto 2] }]

def detourBody : Body where
  size := 4
  code :=
    let a : Local := ⟨"a", .object "Interval"⟩
    let b : Local := ⟨"b", .object "Interval"⟩
    #v[.goto 2, .assign (.var a) (.new "Interval"), .assign (.var b) (.var a), .goto 2]
  pos := by decide
  ends := rfl

def detourClass : Class := ⟨"Detour", [⟨"run", [], some detourBody⟩]⟩

/-- The copy that the first round makes is there in the second. -/
theorem mem_nodesAt_iff_copyChain_detour :
    detourSource.resolve = .ok detourClass ∧
    ∃ p, (ofClass detourClass).result = .ok p ∧
      (⟨0, 1⟩ : Site) ∈ (p.nodesAt ⟨0, 2⟩ ⟨"b", .object "Interval"⟩).elems ∧
      (p.nodesAt ⟨0, 4⟩ ⟨"b", .object "Interval"⟩).elems = [] := by
  have hc : detourSource.resolve = .ok detourClass := by cbv
  obtain ⟨p, hp, hbody, -⟩ := mem_nodesAt_iff_copyChain detourSource detourClass hc
  obtain ⟨hiff, hpast⟩ := hbody 0 _ detourBody rfl rfl
  have hnew : detourBody.CopyChain (1 : Fin 4) (2 : Fin 4) "a" :=
    .new ⟨_, _, rfl, rfl, rfl, rfl⟩ List.mem_cons_self
  have hcopy : detourBody.CopyChain (1 : Fin 4) (3 : Fin 4) "b" :=
    .copy hnew List.mem_cons_self ⟨_, _, rfl, rfl, rfl, rfl⟩
  have hkeep : detourBody.CopyChain (1 : Fin 4) (2 : Fin 4) "b" := by
    refine .keep hcopy List.mem_cons_self ?_
    rintro ⟨y, e, hcode, -⟩
    cases hcode
  refine ⟨hc, p, hp, ?_, hpast 4 (by decide) _⟩
  exact (hiff (2 : Fin 4) _ _).mpr ⟨(1 : Fin 4), rfl, hkeep⟩

end PointsTo

end Lifespan
