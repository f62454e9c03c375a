import Lifespan.Proofs.Condition

namespace Lifespan

namespace Code.Expr

/-- Built from int literals and int locals by `+`, `-` and `*`. -/
inductive Arithmetic : Expr Local Param → Prop
  | int (v : Int) : Arithmetic (.int v)
  | var {x : Local} (ty : x.ty = .int) : Arithmetic (.var x)
  | add {l r : Expr Local Param} (left : Arithmetic l) (right : Arithmetic r) :
    Arithmetic (.arith .add l r)
  | sub {l r : Expr Local Param} (left : Arithmetic l) (right : Arithmetic r) :
    Arithmetic (.arith .sub l r)
  | mul {l r : Expr Local Param} (left : Arithmetic l) (right : Arithmetic r) :
    Arithmetic (.arith .mul l r)

variable {e : Expr Local Param} {t : Term String}

theorem arithmetic_of_term (h : e.term = .ok t) : e.Arithmetic := by
  induction e generalizing t with
  | int v => exact .int v
  | var x =>
    unfold term at h
    split at h
    · exact .var ‹_›
    · cases h
  | arith op l r ihl ihr =>
    obtain ⟨lt, hl, h⟩ := Except.bind_eq_ok.mp h
    obtain ⟨rt, hr, h⟩ := Except.bind_eq_ok.mp h
    cases op with
    | add => exact .add (ihl hl) (ihr hr)
    | sub => exact .sub (ihl hl) (ihr hr)
    | mul => exact .mul (ihl hl) (ihr hr)
    | div | rem => cases h
  | _ => cases h

theorem Arithmetic.exists_term (h : e.Arithmetic) : ∃ t, e.term = .ok t := by
  induction h with
  | int v => exact ⟨_, rfl⟩
  | var ty => exact ⟨_, if_pos ty⟩
  | add _ _ ihl ihr | sub _ _ ihl ihr | mul _ _ ihl ihr =>
    obtain ⟨lt, hl⟩ := ihl
    obtain ⟨rt, hr⟩ := ihr
    exact ⟨_, Except.bind_eq_ok.mpr ⟨lt, hl, Except.bind_eq_ok.mpr ⟨rt, hr, rfl⟩⟩⟩

theorem exists_term_iff : (∃ t, e.term = .ok t) ↔ e.Arithmetic := by
  constructor
  · rintro ⟨t, h⟩
    exact arithmetic_of_term h
  · exact Arithmetic.exists_term

theorem branching_compare {op : CmpOp} {l r : Expr Local Param} {br : Branching} :
    (Expr.compare op l r).branching = .ok br ↔
      ∃ lt rt, l.term = .ok lt ∧ r.term = .ok rt ∧ br = op.branching lt rt := by
  constructor
  · intro h
    obtain ⟨lt, hl, h⟩ := Except.bind_eq_ok.mp h
    obtain ⟨rt, hr, h⟩ := Except.bind_eq_ok.mp h
    exact ⟨lt, rt, hl, hr, (Except.pure_eq_ok.mp h).symm⟩
  · rintro ⟨lt, rt, hl, hr, rfl⟩
    exact Except.bind_eq_ok.mpr ⟨lt, hl, Except.bind_eq_ok.mpr ⟨rt, hr, rfl⟩⟩

theorem exists_branching_iff : (∃ br, e.branching = .ok br) ↔
    ∃ op l r lt rt, e = .compare op l r ∧ l.term = .ok lt ∧ r.term = .ok rt := by
  constructor
  · rintro ⟨br, h⟩
    obtain ⟨op, l, r, lt, rt, he, hl, hr, -⟩ := branching_eq_ok h
    exact ⟨op, l, r, lt, rt, he, hl, hr⟩
  · rintro ⟨op, l, r, lt, rt, rfl, hl, hr⟩
    exact ⟨_, branching_compare.mpr ⟨lt, rt, hl, hr, rfl⟩⟩

end Code.Expr

theorem CmpOp.branching_holds? (op : CmpOp) {l r : Term String} {v : String → Option Int}
    {w : String → Int} (hv : ∀ x k, v x = some k → w x = k) (outcome : Bool) {answer : Bool}
    (h : ((op.branching l r).on outcome).holds? v = some answer) :
    answer = (op.holds (l.eval w) (r.eval w) == outcome) := by
  rw [Bool.eq_iff_iff, Constraint.holds_of_holds? hv h, op.branching_holds_iff, beq_iff_eq]

namespace Code.Expr

/-- An expression has a term exactly if it is built from int literals and int locals by `+`, `-` and
`*`, and then is worth what the term is. A condition has constraints exactly if it compares two
expressions with terms. In exact arithmetic the first holds if the comparison is true and the second
if it is false. In bounded arithmetic, where either of them may overflow, each one that answers
gives this answer, so of two answers exactly one is true. -/
theorem branching_complements (e cond : Expr Local Param) :
    ((∃ t, e.term = .ok t) ↔ e.Arithmetic) ∧
    (∀ t, e.term = .ok t → ∀ args ints c, e.Value args ints c ↔ c = t.eval ints) ∧
    ((∃ br, cond.branching = .ok br) ↔
      ∃ op l r lt rt, cond = .compare op l r ∧ l.term = .ok lt ∧ r.term = .ok rt) ∧
    ∀ op l r br, cond = .compare op l r → cond.branching = .ok br →
      (∀ args ints, ∃ a b, l.Value args ints a ∧ r.Value args ints b ∧
        (br.taken.Holds ints ↔ op.holds a b = true) ∧
        (br.passed.Holds ints ↔ op.holds a b = false)) ∧
      ∀ v args ints, (∀ x k, v x = some k → ints x = k) →
        ∃ a b, l.Value args ints a ∧ r.Value args ints b ∧
          (∀ answer, br.taken.holds? v = some answer → answer = op.holds a b) ∧
          ∀ answer, br.passed.holds? v = some answer → answer = !op.holds a b := by
  refine ⟨exists_term_iff, fun t ht args ints c => value_iff_of_term ht, exists_branching_iff, ?_⟩
  rintro op l r br rfl h
  obtain ⟨lt, rt, hl, hr, rfl⟩ := branching_compare.mp h
  have hleft (args : Nat → Int) (ints : String → Int) : l.Value args ints (lt.eval ints) :=
    (value_iff_of_term hl).mpr rfl
  have hright (args : Nat → Int) (ints : String → Int) : r.Value args ints (rt.eval ints) :=
    (value_iff_of_term hr).mpr rfl
  refine ⟨fun args ints => ?_, fun v args ints hv => ?_⟩
  · exact ⟨_, _, hleft args ints, hright args ints, op.branching_holds_iff lt rt ints true,
      op.branching_holds_iff lt rt ints false⟩
  · refine ⟨_, _, hleft args ints, hright args ints, fun answer hanswer => ?_,
      fun answer hanswer => ?_⟩
    · simpa using op.branching_holds? hv true hanswer
    · simpa using op.branching_holds? hv false hanswer

/-- `x > y`. -/
def above : Expr Local Param := .compare .gt (.var ⟨"x", .int⟩) (.var ⟨"y", .int⟩)

/-- Where `x` is 0 and `y` is the least 64-bit integer. -/
def farApart : String → Option Int
  | "x" => some 0
  | "y" => some (-int64Limit)
  | _ => none

/-- Here `x - y` overflows and `y - x` does not: only the second constraint answers, and rightly. -/
theorem branching_complements_farApart :
    ∃ br, above.branching = .ok br ∧ br.taken.holds? farApart = none ∧
    br.passed.holds? farApart = some false ∧
      ∀ ints, ints "x" = 0 → ints "y" = -int64Limit → br.taken.Holds ints ∧
      ¬ br.passed.Holds ints := by
  obtain ⟨-, -, -, h⟩ := branching_complements above above
  refine ⟨_, rfl, by decide, by decide, fun ints hx hy => ?_⟩
  obtain ⟨a, b, ha, hb, htaken, hpassed⟩ := (h .gt _ _ _ rfl rfl).1 (fun _ => 0) ints
  cases ha
  cases hb
  have hgt : CmpOp.holds .gt (ints "x") (ints "y") = true := by
    rw [hx, hy]
    decide
  rw [htaken, hpassed, hgt]
  simp

end Code.Expr

end Lifespan
