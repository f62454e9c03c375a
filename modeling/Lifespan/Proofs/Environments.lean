import Lifespan.Proofs.Acceptance
import Lifespan.Proofs.Initializers
import Lifespan.Proofs.Operations

namespace Lifespan

/-- Assigns the int local of this name. -/
inductive Code.Instr.AssignsInt {P T : Type} (name : String) : Code.Instr Local P T → Prop
  | mk {x : Local} (value : Code.Expr Local P) (ty : x.ty = .int) (named : x.name = name) :
      AssignsInt name (.assign (.var x) value)

theorem Code.Instr.AssignsInt.exists_local {P T : Type} {name : String}
    {instr : Code.Instr Local P T} (h : instr.AssignsInt name) :
    ∃ x ∈ instr.locals, x.name = name := by
  obtain ⟨value, -, named⟩ := h
  exact ⟨_, List.mem_append_left _ (List.mem_singleton_self _), named⟩

section Scan

variable {n : Nat} {code : List (Instr n)} {instr : Instr n} {i j : Nat} {x y : String}

/-- The instruction at `i` assigns the int local `x`. -/
def AssignedAt (code : List (Instr n)) (i : Nat) (x : String) : Prop :=
  ∃ instr, code[i]? = some instr ∧ instr.AssignsInt x

theorem not_assignedAt_nil : ¬ AssignedAt ([] : List (Instr n)) i x := by
  rintro ⟨instr, hinstr, -⟩
  simp at hinstr

theorem AssignedAt.lt (h : AssignedAt code i x) : i < code.length := by
  obtain ⟨instr, hinstr, -⟩ := h
  exact (List.getElem?_eq_some_iff.mp hinstr).1

theorem assignedAt_append :
    AssignedAt (code ++ [instr]) i x ↔ AssignedAt code i x ∨ i = code.length ∧
    instr.AssignsInt x := by
  unfold AssignedAt
  rcases Nat.lt_trichotomy i code.length with hlt | rfl | hgt
  · simp [List.getElem?_append_left hlt, hlt.ne]
  · simp
  · simp [List.getElem?_append_right hgt.le, List.getElem?_eq_none hgt.le, hgt.ne',
      List.getElem?_eq_none (show [instr].length ≤ i - code.length by simp; omega)]

theorem AssignedAt.of_append (h : AssignedAt (code ++ [instr]) j x) (hj : j < code.length) :
    AssignedAt code j x := by
  rcases assignedAt_append.mp h with h | ⟨rfl, -⟩
  · exact h
  · exact absurd hj (Nat.lt_irrefl _)

/-- `x` is assigned before any assignment of `y`. -/
def AssignedBefore (code : List (Instr n)) (x y : String) : Prop :=
  ∃ i, AssignedAt code i x ∧ ∀ j ≤ i, ¬ AssignedAt code j y

theorem AssignedBefore.append (h : AssignedBefore code x y) :
    AssignedBefore (code ++ [instr]) x y := by
  obtain ⟨i, hi, hnone⟩ := h
  exact ⟨i, assignedAt_append.mpr (.inl hi), fun j hj hy => hnone j hj
    (hy.of_append (lt_of_le_of_lt hj hi.lt))⟩

/-- The names are those of the int locals that the code assigns, in the order of their
first assignments. -/
structure FirstAssigned (code : List (Instr n)) (names : List String) : Prop where
  mem : ∀ x, x ∈ names ↔ ∃ i, AssignedAt code i x
  order : names.Pairwise (AssignedBefore code)

theorem FirstAssigned.nodup {names : List String} (h : FirstAssigned code names) : names.Nodup := by
  refine h.order.imp ?_
  rintro x _ ⟨i, hi, hnone⟩ rfl
  exact hnone i le_rfl hi

theorem FirstAssigned.append_old {names : List String} (h : FirstAssigned code names)
    (hold : ∀ x, instr.AssignsInt x → x ∈ names) : FirstAssigned (code ++ [instr]) names where
  mem x := by
    simp only [assignedAt_append, exists_or, h.mem x]
    constructor
    · exact .inl
    · rintro (hx | ⟨i, -, hx⟩)
      · exact hx
      · exact (h.mem x).mp (hold x hx)
  order := h.order.imp AssignedBefore.append

theorem FirstAssigned.append_new {names : List String}
    (h : FirstAssigned code names) (hx : x ∉ names) (hinstr : ∀ y, instr.AssignsInt y ↔ y = x) :
    FirstAssigned (code ++ [instr]) (names ++ [x]) where
  mem y := by
    simp [assignedAt_append, exists_or, h.mem y, hinstr]
  order := by
    refine List.pairwise_append.mpr
      ⟨h.order.imp AssignedBefore.append, List.pairwise_singleton _ _, ?_⟩
    intro y hy z hz
    obtain rfl := List.mem_singleton.mp hz
    obtain ⟨i, hi⟩ := (h.mem y).mp hy
    refine ⟨i, assignedAt_append.mpr (.inl hi), fun j hj hz => hx ((h.mem z).mpr ⟨j, ?_⟩)⟩
    exact hz.of_append (lt_of_le_of_lt hj hi.lt)

theorem firstAssigned_assignedInts (code : List (Instr n)) :
    FirstAssigned code (assignedInts code) := by
  induction code using List.reverseRecOn with
  | nil => exact ⟨by simp [assignedInts, not_assignedAt_nil], .nil⟩
  | append_singleton code instr ih =>
    rw [assignedInts, List.foldl_concat]
    change FirstAssigned code (assignedInts code) at ih
    split
    case h_1 x value =>
      split
      case isTrue hnew =>
        refine ih.append_new hnew.2 fun y => ⟨?_, ?_⟩
        · rintro ⟨-, -, rfl⟩
          rfl
        · rintro rfl
          exact .mk value hnew.1 rfl
      case isFalse hold =>
        refine ih.append_old ?_
        rintro y ⟨-, hty, rfl⟩
        by_contra hy
        exact hold ⟨hty, hy⟩
    case h_2 hother =>
      refine ih.append_old ?_
      rintro y ⟨value, -, -⟩
      exact absurd rfl (hother _ value)

end Scan

/-- Ghosts are told apart by the numbers in their names. -/
theorem Initializer.id_eq_of_ghost {i j : Initializer} (h : i.ghost = j.ghost) : i.id = j.id := by
  have hname : i.name = j.name := (String.append_left_inj _).mp ((String.append_left_inj _).mp h)
  exact Nat.repr_injective ((String.append_right_inj _).mp hname)

namespace Resolver

variable {r : Resolver} {s : Settings} {calls : List (Site × Call)}

theorem Numbers.ids_pairwise_lt (h : r.Numbers s calls) :
    r.initializers.Pairwise fun i j => i.id < j.id := by
  rw [← List.pairwise_map (f := Initializer.id) (R := (· < ·)), h.ids]
  exact List.pairwise_lt_range

theorem Numbers.ghosts_ne (h : r.Numbers s calls) :
    r.initializers.Pairwise fun i j => i.ghost ≠ j.ghost :=
  h.ids_pairwise_lt.imp fun hlt heq => hlt.ne (Initializer.id_eq_of_ghost heq)

theorem Numbers.ghost_inj (h : r.Numbers s calls) {i j : Initializer} (hi : i ∈ r.initializers)
    (hj : j ∈ r.initializers) (heq : i.ghost = j.ghost) : i = j :=
  List.inj_on_of_nodup_map (List.pairwise_map.mpr h.ghosts_ne) hi hj heq

end Resolver

theorem assignedAt_code {b : Body} {i : Nat} {x : String} :
    AssignedAt b.code.toList i x ↔ ∃ h : i < b.size, (b.code.get ⟨i, h⟩).AssignsInt x := by
  constructor
  · rintro ⟨instr, hinstr, hassigns⟩
    obtain ⟨hi, rfl⟩ := List.getElem?_eq_some_iff.mp hinstr
    exact ⟨by simpa using hi, by simpa [Vector.get_eq_getElem] using hassigns⟩
  · rintro ⟨hi, hassigns⟩
    exact ⟨_, by simp [hi, Vector.get_eq_getElem], hassigns⟩

namespace Method

variable {m : Method}

theorem mem_integerLocals {x : String} :
    x ∈ m.integerLocals ↔ ∃ b i, m.body = some b ∧ AssignedAt b.code.toList i x := by
  unfold integerLocals
  cases m.body with
  | none => simp
  | some b => simp [(firstAssigned_assignedInts b.code.toList).mem]

theorem integerLocals_pairwise :
    m.integerLocals.Pairwise fun x y => ∃ b, m.body = some b ∧
    AssignedBefore b.code.toList x y := by
  unfold integerLocals
  cases m.body with
  | none => exact .nil
  | some b => simpa using (firstAssigned_assignedInts b.code.toList).order

theorem mem_integerLocals_of_code {b : Body} (hb : m.body = some b) {i : Fin b.size} {x : String}
    (h : (b.code.get i).AssignsInt x) : x ∈ m.integerLocals :=
  mem_integerLocals.mpr ⟨b, i, hb, assignedAt_code.mpr ⟨i.isLt, h⟩⟩

theorem nodup_integerLocals : m.integerLocals.Nodup := by
  unfold integerLocals
  cases m.body with
  | none => exact .nil
  | some b => exact (firstAssigned_assignedInts b.code.toList).nodup

/-- The locals of a method of an accepted class are not named like ghosts. -/
theorem plain_integerLocals {src : SourceClass} {c : Class} (hc : src.resolve = .ok c)
    (hm : m ∈ c.methods) {x : String} (hx : x ∈ m.integerLocals) : isQualified x = false := by
  obtain ⟨b, i, hb, hassigned⟩ := mem_integerLocals.mp hx
  obtain ⟨hi, hassigns⟩ := assignedAt_code.mp hassigned
  obtain ⟨y, hy, rfl⟩ := hassigns.exists_local
  exact SourceClass.plain_of_resolve hc hm hb ⟨i, hi⟩ y hy

theorem exists_environment {src : SourceClass} {c : Class} {s : Settings}
    {oracle : Oracle} {r : Resolver} (hc : src.resolve = .ok c)
    (hr : (Resolver.ofOracle c s oracle).result = .ok r) (hm : m ∈ c.methods) (id : Nat) :
    ∃ env, m.environment (r.initializersOf id) = .ok env := by
  have hnum := Resolver.numbers_of_ofOracle hr
  refine Environment.exists_ofVars (List.nodup_append.mpr ⟨nodup_integerLocals, ?_, ?_⟩)
  · exact List.pairwise_map.mpr (hnum.ghosts_ne.filter _)
  · intro x hx ghost hghost
    obtain ⟨i, -, rfl⟩ := List.mem_map.mp hghost
    exact i.ne_ghost (plain_integerLocals hc hm hx)

end Method

/-- The environment of a method of an accepted class can be built, for any resolver on the class.
Its variables are the int locals that the code assigns, reached or not, in the order of their first
assignments, and then the ghosts of the initializers of the method by number. No two initializers of
the class have one ghost, and none is named like a declared local of any method. A name has the
position that it has in the list, and no position exactly if it is not there. -/
theorem Environment.wellFormed_of_resolve (src : SourceClass) (c : Class) (s : Settings)
    (oracle : Oracle) (r : Resolver) (id : Nat) (m : Method) (hc : src.resolve = .ok c)
    (hr : (Resolver.ofOracle c s oracle).result = .ok r) (hm : c.methods[id]? = some m) :
    ∃ env locals, m.environment (r.initializersOf id) = .ok env ∧
      env.vars = locals ++ (r.initializersOf id).map Initializer.ghost ∧ env.vars.Nodup ∧
      (∀ x, x ∈ locals ↔ ∃ b i, m.body = some b ∧ AssignedAt b.code.toList i x) ∧
      locals.Pairwise (fun x y => ∃ b, m.body = some b ∧ AssignedBefore b.code.toList x y) ∧
      (∀ i, i ∈ r.initializersOf id ↔ i ∈ r.initializers ∧ i.site.method = id) ∧
      (r.initializersOf id).Pairwise (fun i j => i.id < j.id) ∧
      (∀ i ∈ r.initializers, ∀ j ∈ r.initializers, i.ghost = j.ghost → i = j) ∧
      (∀ i ∈ r.initializers, ∀ source ∈ src.methods, i.ghost ∉ source.locals.keys) ∧
      (∀ v k, env.index v = .ok k ↔ env.vars.get k = v) ∧
      ∀ v, env.index v = .error (.domain (.unknown v)) ↔ v ∉ env.vars := by
  have hnum := Resolver.numbers_of_ofOracle hr
  obtain ⟨env, henv⟩ := Method.exists_environment hc hr (List.mem_of_getElem? hm) id
  refine ⟨env, m.integerLocals, henv, vars_of_ofVars henv, env.nodup,
    fun x => Method.mem_integerLocals, Method.integerLocals_pairwise, fun i =>
      Resolver.mem_initializersOf, hnum.ids_pairwise_lt.filter _,
    fun i hi j hj => hnum.ghost_inj hi hj, fun i _ source hsource hkey =>
      ?_, fun v k => index_eq_ok,
    fun v => index_eq_error_iff⟩
  have hplain := (SourceClass.exists_resolve_iff.mp ⟨c, hc⟩ source hsource).plain _ hkey
  have hdot := i.isQualified_ghost
  rw [isQualified, List.contains_iff_mem] at hdot
  exact hplain hdot

namespace Environment

/-- An interval in each of two methods; the second assigns `b` before and after `a`, and has a local
that it never assigns. -/
def ledgerSource : SourceClass where
  name := "Ledger"
  methods := [
    { name := "open"
      params := []
      locals := FinMap.empty.insert "o" (.object "Interval")
      body := some [
        .assign (.var "o") (.new "Interval"),
        .call ⟨.special, "Interval", "<init>", some "o", [.int 0, .int 9]⟩,
        .returnVoid] },
    { name := "post"
      params := [.int]
      locals := (((FinMap.empty.insert "a" .int).insert "b" .int).insert "c" .int).insert "o"
        (.object "Interval")
      body := some [
        .assign (.var "b") (.param 0),
        .assign (.var "o") (.new "Interval"),
        .assign (.var "a") (.int 1),
        .assign (.var "b") (.var "a"),
        .call ⟨.special, "Interval", "<init>", some "o", [.int 0, .var "b"]⟩,
        .returnVoid] }]

def ledgerOpen : Body where
  size := 3
  code :=
    let o : Local := ⟨"o", .object "Interval"⟩
    #v[.assign (.var o) (.new "Interval"),
      .call ⟨.special, "Interval", "<init>", some o, [.int 0, .int 9]⟩,
      .returnVoid]
  pos := Nat.le_add_left 1 _
  ends := Eq.refl false

def ledgerPost : Body where
  size := 6
  code :=
    let a : Local := ⟨"a", .int⟩
    let b : Local := ⟨"b", .int⟩
    let o : Local := ⟨"o", .object "Interval"⟩
    #v[.assign (.var b) (.param ⟨0, .int⟩),
      .assign (.var o) (.new "Interval"),
      .assign (.var a) (.int 1),
      .assign (.var b) (.var a),
      .call ⟨.special, "Interval", "<init>", some o, [.int 0, .var b]⟩,
      .returnVoid]
  pos := Nat.le_add_left 1 _
  ends := Eq.refl false

def ledgerClass : Class :=
  ⟨"Ledger", [⟨"open", [], some ledgerOpen⟩, ⟨"post", [.int], some ledgerPost⟩]⟩

def ledgerOracle : Oracle := fun site _ => FinSet.single ⟨site.method, site.method⟩

def ledgerResolver : Resolver :=
  (Resolver.start ledgerOracle).push ⟨0, 1⟩ ⟨0, 0⟩ 0 (.int 9)
    |>.push ⟨1, 4⟩ ⟨1, 1⟩ 0 (.var ⟨"b", .int⟩)

theorem wellFormed_of_resolve_ledger :
    ledgerSource.resolve = .ok ledgerClass ∧
    (Resolver.ofOracle ledgerClass {} ledgerOracle).result = .ok ledgerResolver ∧
    ∃ env, (Method.mk "post" [.int] (some ledgerPost)).environment
    (ledgerResolver.initializersOf 1) = .ok env ∧
      env.vars = ["b", "a", "AbstractObject1.end"] ∧ (∀ k, env.index "a" = .ok k ↔ k.val = 1) ∧
      env.index "AbstractObject0.end" = .error (.domain (.unknown "AbstractObject0.end")) := by
  have hc : ledgerSource.resolve = .ok ledgerClass := by cbv
  have hr : (Resolver.ofOracle ledgerClass {} ledgerOracle).result = .ok ledgerResolver := by cbv
  obtain ⟨env, locals, henv, -, -, -, -, -, -, -, -, hindex, houtside⟩ :=
    wellFormed_of_resolve ledgerSource ledgerClass {} ledgerOracle ledgerResolver 1 _ hc hr rfl
  have hvars : env.vars = ["b", "a", "AbstractObject1.end"] := vars_of_ofVars henv
  obtain ⟨vars, hnodup⟩ := env
  subst hvars
  refine ⟨hc, hr, _, henv, rfl, fun k => ?_, ?_⟩
  · have hat : ∀ k : Fin 3, ["b", "a", "AbstractObject1.end"].get k = "a" ↔ k.val = 1 := by decide
    exact (hindex "a" k).trans (hat k)
  · have hother : "AbstractObject0.end" ∉ ["b", "a", "AbstractObject1.end"] := by decide
    exact (houtside _).mpr hother

end Environment

end Lifespan
