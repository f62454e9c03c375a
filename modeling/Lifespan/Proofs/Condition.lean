import Lifespan.Condition
import Lifespan.Proofs.AbstractState
import Lifespan.Proofs.Execution
import Lifespan.Proofs.Locals

namespace Lifespan

variable {args : Nat → Int} {ints : String → Int}

namespace Code.Expr

variable {e : Expr Local Param} {t : Term String}

/-- The term of a binary operation is that of its operands. -/
theorem term_arith {op : ArithOp} {l r : Expr Local Param} (h : (Expr.arith op l r).term = .ok t) :
    ∃ lt rt, l.term = .ok lt ∧ r.term = .ok rt ∧ t.vars = lt.vars ++ rt.vars ∧
      ∀ v : String → Int, op.apply? (lt.eval v) (rt.eval v) = some (t.eval v) := by
  obtain ⟨lt, hl, h⟩ := Except.bind_eq_ok.mp h
  obtain ⟨rt, hr, h⟩ := Except.bind_eq_ok.mp h
  cases op with
  | add | sub | mul =>
    obtain rfl := Except.pure_eq_ok.mp h
    exact ⟨lt, rt, hl, hr, rfl, fun v => rfl⟩
  | div | rem => cases h

/-- An expression that has a term is worth the value of the term and nothing else. -/
theorem value_iff_of_term (h : e.term = .ok t) {c : Int} : e.Value args ints c ↔
    c = t.eval ints := by
  induction e generalizing t c with
  | int v =>
    obtain rfl := Except.ok.inj h
    constructor
    · rintro ⟨⟩
      rfl
    · rintro rfl
      exact .int _
  | var x =>
    unfold term at h
    split at h
    case isTrue ty =>
      obtain rfl := Except.ok.inj h
      constructor
      · rintro ⟨⟩
        rfl
      · rintro rfl
        exact .var ty
    case isFalse => cases h
  | arith op l r ihl ihr =>
    obtain ⟨lt, rt, hl, hr, -, hop⟩ := term_arith h
    constructor
    · rintro (_ | _ | _ | _ | _ | _ | _ | ⟨left, right, result⟩)
      rw [(ihl hl).mp left, (ihr hr).mp right, hop] at result
      exact (Option.some.inj result).symm
    · rintro rfl
      exact .arith ((ihl hl).mpr rfl) ((ihr hr).mpr rfl) (hop ints)
  | _ => cases h

/-- The variables of a term are the locals of its expression, in order, and these are int locals. -/
theorem vars_of_term (h : e.term = .ok t) :
    t.vars = e.locals.map Local.name ∧ ∀ x ∈ e.locals, x.ty = .int := by
  induction e generalizing t with
  | int v =>
    obtain rfl := Except.ok.inj h
    exact ⟨rfl, by simp [locals]⟩
  | var x =>
    unfold term at h
    split at h
    case isTrue ty =>
      obtain rfl := Except.ok.inj h
      exact ⟨rfl, by simpa [locals] using ty⟩
    case isFalse => cases h
  | arith op l r ihl ihr =>
    obtain ⟨lt, rt, hl, hr, hvars, -⟩ := term_arith h
    obtain ⟨hlvars, hlty⟩ := ihl hl
    obtain ⟨hrvars, hrty⟩ := ihr hr
    rw [hvars, hlvars, hrvars, locals, List.map_append]
    exact ⟨rfl, fun x hx => (List.mem_append.mp hx).elim (hlty x) (hrty x)⟩
  | _ => cases h

theorem mem_locals_of_term (h : e.term = .ok t) {x : String} (hx : x ∈ t.vars) :
    ∃ y ∈ e.locals, y.name = x ∧ y.ty = .int := by
  obtain ⟨hvars, hty⟩ := vars_of_term h
  rw [hvars] at hx
  obtain ⟨y, hy, rfl⟩ := List.mem_map.mp hx
  exact ⟨y, hy, rfl, hty y hy⟩

theorem term_eq_error {err : Error} (h : e.term = .error err) : ∃ u, err = .unsupported u := by
  induction e generalizing err with
  | int v => cases h
  | var x =>
    unfold term at h
    split at h
    · cases h
    · exact ⟨_, (Except.error.inj h).symm⟩
  | arith op l r ihl ihr =>
    rcases Except.bind_eq_error.mp h with h | ⟨lt, -, h⟩
    · exact ihl h
    rcases Except.bind_eq_error.mp h with h | ⟨rt, -, h⟩
    · exact ihr h
    cases op with
    | add | sub | mul => cases h
    | div | rem => exact ⟨_, (Except.error.inj h).symm⟩
  | _ => exact ⟨_, (Except.error.inj h).symm⟩

/-- A term mentions locals only. -/
theorem plain_of_term (h : e.term = .ok t) (hplain : ∀ y ∈ e.locals, isQualified y.name = false) :
    ∀ x ∈ t.vars, isQualified x = false := by
  intro x hx
  obtain ⟨y, hy, rfl, -⟩ := mem_locals_of_term h hx
  exact hplain y hy

theorem branching_eq_ok {br : Branching} (h : e.branching = .ok br) :
    ∃ op l r lt rt, e = .compare op l r ∧ l.term = .ok lt ∧ r.term = .ok rt ∧
      br = op.branching lt rt := by
  unfold branching at h
  split at h
  case h_1 op l r =>
    obtain ⟨lt, hl, h⟩ := Except.bind_eq_ok.mp h
    obtain ⟨rt, hr, h⟩ := Except.bind_eq_ok.mp h
    exact ⟨op, l, r, lt, rt, rfl, hl, hr, (Except.pure_eq_ok.mp h).symm⟩
  case h_2 => cases h

end Code.Expr

/-- The constraint that an outcome establishes. -/
def Branching.on (b : Branching) : Bool → Constraint String
  | true => b.taken
  | false => b.passed

/-- The constraint of an outcome says that the comparison has it. -/
theorem CmpOp.branching_holds_iff (op : CmpOp) (l r : Term String) (v : String → Int)
    (outcome : Bool) :
    ((op.branching l r).on outcome).Holds v ↔ op.holds (l.eval v) (r.eval v) = outcome := by
  cases outcome <;> cases op <;>
    simp only [branching, Branching.on, Constraint.Holds, Relation.Holds, Term.eval, holds,
      decide_eq_true_eq, decide_eq_false_iff_not] <;> omega

theorem CmpOp.mem_vars_branching (op : CmpOp) (l r : Term String) (outcome : Bool) {x : String} :
    x ∈ ((op.branching l r).on outcome).term.vars ↔ x ∈ l.vars ∨ x ∈ r.vars := by
  cases op <;> cases outcome <;>
    simp only [branching, Branching.on, Term.vars, List.mem_append, or_comm]

namespace Code.Expr

variable {e : Expr Local Param} {br : Branching}

/-- When a condition comes out, the constraint of that outcome holds. -/
theorem Outcome.holds {outcome : Bool} (ho : e.Outcome args ints outcome)
    (h : e.branching = .ok br) : (br.on outcome).Holds ints := by
  obtain ⟨op, l, r, lt, rt, rfl, hl, hr, rfl⟩ := branching_eq_ok h
  cases ho with
  | compare _ left right =>
    rw [(value_iff_of_term hl).mp left, (value_iff_of_term hr).mp right]
    exact (op.branching_holds_iff lt rt ints _).mpr rfl
  | free _ hfree =>
    -- operands that have terms have values, so the outcome was not free
    have hleft : l.Value args ints (lt.eval ints) := (value_iff_of_term hl).mpr rfl
    have hright : r.Value args ints (rt.eval ints) := (value_iff_of_term hr).mpr rfl
    exact absurd hright (hfree op l r rfl _ _ hleft)

theorem mem_locals_of_branching (h : e.branching = .ok br) (outcome : Bool) {x : String}
    (hx : x ∈ (br.on outcome).term.vars) : ∃ y ∈ e.locals, y.name = x := by
  obtain ⟨op, l, r, lt, rt, rfl, hl, hr, rfl⟩ := branching_eq_ok h
  rcases (op.mem_vars_branching lt rt outcome).mp hx with hx | hx
  · obtain ⟨y, hy, rfl, -⟩ := mem_locals_of_term hl hx
    exact ⟨y, List.mem_append_left _ hy, rfl⟩
  · obtain ⟨y, hy, rfl, -⟩ := mem_locals_of_term hr hx
    exact ⟨y, List.mem_append_right _ hy, rfl⟩

end Code.Expr

end Lifespan
