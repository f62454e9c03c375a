import Lifespan.Class
import Lifespan.Proofs.FinMap
import Lifespan.Proofs.Logged
import Lifespan.Proofs.Vector

namespace Lifespan

namespace Code

variable {V W P Q T U ε : Type}

/-- The locals that occur. -/
def Expr.locals : Expr V P → List V
  | .int _ | .double _ | .null | .self | .param _ | .new _ | .staticField .. => []
  | .var x => [x]
  | .newArray _ size => size.locals
  | .field base _ => [base]
  | .element base index => base :: index.locals
  | .neg operand => operand.locals
  | .arith _ l r | .compare _ l r => l.locals ++ r.locals

def Place.locals : Place V P → List V
  | .var x => [x]
  | .field base _ => [base]
  | .staticField .. => []
  | .element base index => base :: index.locals

def Instr.locals : Instr V P T → List V
  | .assign target value => target.locals ++ value.locals
  | .branch cond _ => cond.locals
  | .goto _ | .returnVoid => []
  | .call c => c.receiver.toList ++ c.args.flatMap Expr.locals
  | .returnValue value | .throwValue value => value.locals

variable {var' : V → Except ε W} {param' : P → Except ε Q}

theorem Expr.mem_locals_resolve {e : Expr V P} {e' : Expr W Q} (h : e.resolve var' param' = .ok e')
    {y : W} (hy : y ∈ e'.locals) : ∃ x, var' x = .ok y := by
  induction e generalizing e' with
  | int | double | null | self | new | staticField =>
    obtain rfl := Except.ok.inj h
    cases hy
  | param p =>
    obtain ⟨q, -, h⟩ := Except.bind_eq_ok.mp h
    obtain rfl := Except.pure_eq_ok.mp h
    cases hy
  | var x | field x name =>
    obtain ⟨z, hz, h⟩ := Except.bind_eq_ok.mp h
    obtain rfl := Except.pure_eq_ok.mp h
    exact ⟨x, List.mem_singleton.mp hy ▸ hz⟩
  | newArray item size ih | neg size ih =>
    obtain ⟨s, hs, h⟩ := Except.bind_eq_ok.mp h
    obtain rfl := Except.pure_eq_ok.mp h
    exact ih hs hy
  | element base index ih =>
    obtain ⟨z, hz, h⟩ := Except.bind_eq_ok.mp h
    obtain ⟨s, hs, h⟩ := Except.bind_eq_ok.mp h
    obtain rfl := Except.pure_eq_ok.mp h
    rcases List.mem_cons.mp hy with rfl | hy
    · exact ⟨base, hz⟩
    · exact ih hs hy
  | arith op l r ihl ihr | compare op l r ihl ihr =>
    obtain ⟨l', hl, h⟩ := Except.bind_eq_ok.mp h
    obtain ⟨r', hr, h⟩ := Except.bind_eq_ok.mp h
    obtain rfl := Except.pure_eq_ok.mp h
    exact (List.mem_append.mp hy).elim (ihl hl) (ihr hr)

theorem Place.mem_locals_resolve {p : Place V P} {p' : Place W Q}
    (h : p.resolve var' param' = .ok p') {y : W} (hy : y ∈ p'.locals) : ∃ x, var' x = .ok y := by
  cases p with
  | var x | field x name =>
    obtain ⟨z, hz, h⟩ := Except.bind_eq_ok.mp h
    obtain rfl := Except.pure_eq_ok.mp h
    exact ⟨x, List.mem_singleton.mp hy ▸ hz⟩
  | staticField cls name =>
    obtain rfl := Except.ok.inj h
    cases hy
  | element base index =>
    obtain ⟨z, hz, h⟩ := Except.bind_eq_ok.mp h
    obtain ⟨s, hs, h⟩ := Except.bind_eq_ok.mp h
    obtain rfl := Except.pure_eq_ok.mp h
    rcases List.mem_cons.mp hy with rfl | hy
    · exact ⟨base, hz⟩
    · exact Expr.mem_locals_resolve hs hy

end Code

namespace Scope

variable {s : Scope} {y : Local}

theorem mem_locals_call {c : SourceCall} {c' : Call} (h : s.call c = .ok c')
    (hy : y ∈ c'.receiver.toList ++ c'.args.flatMap Code.Expr.locals) : ∃ x, s.var x = .ok y := by
  obtain ⟨receiver, hr, h⟩ := Except.bind_eq_ok.mp h
  obtain ⟨args, ha, h⟩ := Except.bind_eq_ok.mp h
  obtain rfl := Except.pure_eq_ok.mp h
  rcases List.mem_append.mp hy with hy | hy
  · unfold Scope.receiver at hr
    split at hr
    case h_1 =>
      obtain rfl := Except.ok.inj hr
      cases hy
    case h_2 => cases hr
    case h_3 => cases hr
    case h_4 x _ _ =>
      obtain ⟨z, hz, rfl⟩ := Except.map_eq_ok.mp hr
      exact ⟨x, List.mem_singleton.mp hy ▸ hz⟩
  · obtain ⟨e', he', hy⟩ := List.mem_flatMap.mp hy
    obtain ⟨e, -, he⟩ := Except.mem_of_mapM ha he'
    exact Code.Expr.mem_locals_resolve he hy

theorem mem_locals_instr {i : SourceInstr} {i' : Instr s.length} (h : s.instr i = .ok i')
    (hy : y ∈ i'.locals) : ∃ x, s.var x = .ok y := by
  cases i with
  | assign target value =>
    obtain ⟨t, ht, h⟩ := Except.bind_eq_ok.mp h
    obtain ⟨v, hv, h⟩ := Except.bind_eq_ok.mp h
    obtain ⟨-, -, h⟩ := Except.bind_eq_ok.mp h
    obtain rfl := Except.pure_eq_ok.mp h
    exact (List.mem_append.mp hy).elim (Code.Place.mem_locals_resolve ht)
      (Code.Expr.mem_locals_resolve hv)
  | branch cond target =>
    obtain ⟨c, hc, h⟩ := Except.bind_eq_ok.mp h
    obtain ⟨t, -, h⟩ := Except.bind_eq_ok.mp h
    obtain rfl := Except.pure_eq_ok.mp h
    exact Code.Expr.mem_locals_resolve hc hy
  | goto target =>
    obtain ⟨t, -, h⟩ := Except.bind_eq_ok.mp h
    obtain rfl := Except.pure_eq_ok.mp h
    cases hy
  | call c =>
    obtain ⟨c', hc, h⟩ := Except.bind_eq_ok.mp h
    obtain rfl := Except.pure_eq_ok.mp h
    exact mem_locals_call hc hy
  | returnVoid =>
    obtain rfl := Except.pure_eq_ok.mp h
    cases hy
  | returnValue value | throwValue value =>
    obtain ⟨v, hv, h⟩ := Except.bind_eq_ok.mp h
    obtain rfl := Except.pure_eq_ok.mp h
    exact Code.Expr.mem_locals_resolve hv hy

theorem get?_of_var {x : String} (h : s.var x = .ok y) : s.locals.get? y.name = some y.ty := by
  unfold var at h
  cases hty : s.locals.get? x with
  | none =>
    rw [hty] at h
    cases h
  | some ty =>
    rw [hty] at h
    obtain rfl := Except.ok.inj h
    exact hty

end Scope

theorem Body.ofCode_eq_ok {method : String} {n : Nat} {code : Vector (Instr n) n} {b : Body} :
    Body.ofCode method code = .ok b ↔ ∃ hn he, b = ⟨n, code, hn, he⟩ := by
  unfold Body.ofCode
  split
  case isTrue =>
    split
    case isTrue hn he =>
      constructor
      · intro h
        exact ⟨hn, he, (Except.ok.inj h).symm⟩
      · rintro ⟨_, _, rfl⟩
        rfl
    case isFalse he =>
      constructor
      · intro h
        cases h
      · rintro ⟨_, he', -⟩
        exact absurd he' he
  case isFalse hn =>
    constructor
    · intro h
      cases h
    · rintro ⟨hn', -⟩
      exact absurd hn' hn

namespace SourceMethod

variable {m : SourceMethod} {m' : Method} {b : Body}

/-- The locals of resolved code have the types they are declared with. -/
theorem get?_of_resolveBody {source : List SourceInstr} (h : m.resolveBody source = .ok b)
    (i : Fin b.size) {x : Local} (hx : x ∈ (b.code.get i).locals) :
    m.locals.get? x.name = some x.ty := by
  obtain ⟨code, hcode, h⟩ := Except.bind_eq_ok.mp h
  obtain ⟨hn, he, rfl⟩ := Body.ofCode_eq_ok.mp h
  obtain ⟨instr, hinstr⟩ := Except.get_of_mapM hcode i
  obtain ⟨name, hvar⟩ := Scope.mem_locals_instr hinstr hx
  exact Scope.get?_of_var hvar

/-- A body of a resolved method was resolved, and no local of the method is qualified. -/
theorem exists_of_resolve (h : m.resolve = .ok m') (hb : m'.body = some b) :
    m.locals.keys.find? isQualified = none ∧ ∃ source, m.resolveBody source = .ok b := by
  unfold SourceMethod.resolve at h
  cases hm : m.locals.keys.find? isQualified with
  | some x =>
    rw [hm] at h
    cases h
  | none =>
    rw [hm] at h
    obtain ⟨body, hbody, h⟩ := Except.bind_eq_ok.mp h
    obtain rfl := Except.pure_eq_ok.mp h
    obtain rfl : body = some b := hb
    cases hsource : m.body with
    | none =>
      rw [hsource] at hbody
      cases hbody
    | some source =>
      rw [hsource] at hbody
      obtain ⟨b', hb', heq⟩ := Except.map_eq_ok.mp hbody
      obtain rfl := Option.some.inj heq
      exact ⟨rfl, source, hb'⟩

end SourceMethod

theorem SourceClass.exists_of_resolve {src : SourceClass} {c : Class} (h : src.resolve = .ok c)
    {m : Method} (hm : m ∈ c.methods) : ∃ source : SourceMethod, source.resolve = .ok m := by
  obtain ⟨methods, hmethods, h⟩ := Except.bind_eq_ok.mp h
  obtain rfl := Except.pure_eq_ok.mp h
  obtain ⟨source, -, hs⟩ := Except.mem_of_mapM hmethods hm
  exact ⟨source, hs⟩

/-- None of the locals of the body has a qualified name. -/
def Body.Plain (b : Body) : Prop := ∀ i, ∀ x ∈ (b.code.get i).locals, isQualified x.name = false

/-- The code of an accepted class mentions no qualified local. -/
theorem SourceClass.plain_of_resolve {src : SourceClass} {c : Class} (h : src.resolve = .ok c)
    {m : Method} (hm : m ∈ c.methods) {b : Body} (hb : m.body = some b) : b.Plain := by
  obtain ⟨source, hs⟩ := exists_of_resolve h hm
  obtain ⟨hnone, code, hcode⟩ := SourceMethod.exists_of_resolve hs hb
  intro i x hx
  have hkey : x.name ∈ source.locals.keys := by
    rw [FinMap.mem_keys, SourceMethod.get?_of_resolveBody hcode i hx]
    rfl
  simpa using List.find?_eq_none.mp hnone _ hkey

/-- Locals of one name have one type. -/
def Body.Typed (b : Body) : Prop :=
  ∀ i j, ∀ x ∈ (b.code.get i).locals, ∀ y ∈ (b.code.get j).locals, x.name = y.name → x.ty = y.ty

/-- In the code of an accepted class locals are named by their declarations. -/
theorem SourceClass.typed_of_resolve {src : SourceClass} {c : Class} (h : src.resolve = .ok c)
    {m : Method} (hm : m ∈ c.methods) {b : Body} (hb : m.body = some b) : b.Typed := by
  obtain ⟨source, hs⟩ := exists_of_resolve h hm
  obtain ⟨-, code, hcode⟩ := SourceMethod.exists_of_resolve hs hb
  intro i j x hx y hy hname
  have hxty := SourceMethod.get?_of_resolveBody hcode i hx
  rw [hname, SourceMethod.get?_of_resolveBody hcode j hy] at hxty
  exact (Option.some.inj hxty).symm

end Lifespan
