import Lifespan.Proofs.Locals

namespace Lifespan

namespace Code

variable {V W P Q T U ε : Type}

/-- The parameters that occur. -/
def Expr.params : Expr V P → List P
  | .int _ | .double _ | .null | .self | .var _ | .new _ | .field .. | .staticField .. => []
  | .param p => [p]
  | .newArray _ size => size.params
  | .element _ index => index.params
  | .neg operand => operand.params
  | .arith _ l r | .compare _ l r => l.params ++ r.params

def Place.params : Place V P → List P
  | .var _ | .field .. | .staticField .. => []
  | .element _ index => index.params

def Instr.params : Instr V P T → List P
  | .assign target value => target.params ++ value.params
  | .branch cond _ => cond.params
  | .goto _ | .returnVoid => []
  | .call c => c.args.flatMap Expr.params
  | .returnValue value | .throwValue value => value.params

/-- The same expression with other references. -/
def Expr.map (f : V → W) (g : P → Q) : Expr V P → Expr W Q
  | .int v => .int v
  | .double v => .double v
  | .null => .null
  | .self => .self
  | .param p => .param (g p)
  | .var x => .var (f x)
  | .new cls => .new cls
  | .newArray item size => .newArray item (size.map f g)
  | .field base name => .field (f base) name
  | .staticField cls name => .staticField cls name
  | .element base index => .element (f base) (index.map f g)
  | .neg operand => .neg (operand.map f g)
  | .arith op l r => .arith op (l.map f g) (r.map f g)
  | .compare op l r => .compare op (l.map f g) (r.map f g)

def Place.map (f : V → W) (g : P → Q) : Place V P → Place W Q
  | .var x => .var (f x)
  | .field base name => .field (f base) name
  | .staticField cls name => .staticField cls name
  | .element base index => .element (f base) (index.map f g)

def Call.map (f : V → W) (g : P → Q) (c : Call V P) : Call W Q :=
  ⟨c.kind, c.cls, c.method, c.receiver.map f, c.args.map (Expr.map f g)⟩

def Instr.map (f : V → W) (g : P → Q) (t : T → U) : Instr V P T → Instr W Q U
  | .assign target value => .assign (target.map f g) (value.map f g)
  | .branch cond target => .branch (cond.map f g) (t target)
  | .goto target => .goto (t target)
  | .call c => .call (c.map f g)
  | .returnVoid => .returnVoid
  | .returnValue value => .returnValue (value.map f g)
  | .throwValue value => .throwValue (value.map f g)

variable (f : V → W) (g : P → Q) (t : T → U)

@[simp] theorem Expr.locals_map (e : Expr V P) : (e.map f g).locals = e.locals.map f := by
  induction e <;> simp_all [Expr.map, Expr.locals]

@[simp] theorem Expr.params_map (e : Expr V P) : (e.map f g).params = e.params.map g := by
  induction e <;> simp_all [Expr.map, Expr.params]

@[simp] theorem Place.locals_map (p : Place V P) : (p.map f g).locals = p.locals.map f := by
  cases p <;> simp [Place.map, Place.locals]

@[simp] theorem Place.params_map (p : Place V P) : (p.map f g).params = p.params.map g := by
  cases p <;> simp [Place.map, Place.params]

@[simp] theorem Instr.locals_map (i : Instr V P T) : (i.map f g t).locals = i.locals.map f := by
  cases i with
  | call c =>
    cases hr : c.receiver <;>
      simp [Instr.map, Instr.locals, Call.map, hr, List.map_flatMap, List.flatMap_map]
  | _ => simp [Instr.map, Instr.locals]

@[simp] theorem Instr.params_map (i : Instr V P T) : (i.map f g t).params = i.params.map g := by
  cases i <;> simp [Instr.map, Instr.params, Call.map, List.map_flatMap, List.flatMap_map]

@[simp] theorem Instr.target?_map (i : Instr V P T) : (i.map f g t).target? = i.target?.map t := by
  cases i <;> rfl

@[simp] theorem Instr.fallsThrough_map (i : Instr V P T) :
    (i.map f g t).fallsThrough = i.fallsThrough := by
  cases i <;> rfl

variable {var' : V → Except ε W} {param' : P → Except ε Q}

section Undo

variable {f : W → V} {g : Q → P} (hf : ∀ x y, var' x = .ok y → f y = x)
  (hg : ∀ p q, param' p = .ok q → g q = p)

include hf hg

/-- Resolving keeps the shape: what undoes it for references undoes it for expressions. -/
theorem Expr.map_of_resolve {e : Expr V P} {e' : Expr W Q} (h : e.resolve var' param' = .ok e') :
    e'.map f g = e := by
  induction e generalizing e' with
  | int | double | null | self | new | staticField =>
    obtain rfl := Except.ok.inj h
    rfl
  | param p =>
    obtain ⟨q, hq, h⟩ := Except.bind_eq_ok.mp h
    obtain rfl := Except.pure_eq_ok.mp h
    rw [Expr.map, hg p q hq]
  | var x | field x name =>
    obtain ⟨y, hy, h⟩ := Except.bind_eq_ok.mp h
    obtain rfl := Except.pure_eq_ok.mp h
    rw [Expr.map, hf x y hy]
  | newArray item size ih | neg size ih =>
    obtain ⟨s, hs, h⟩ := Except.bind_eq_ok.mp h
    obtain rfl := Except.pure_eq_ok.mp h
    rw [Expr.map, ih hs]
  | element base index ih =>
    obtain ⟨y, hy, h⟩ := Except.bind_eq_ok.mp h
    obtain ⟨s, hs, h⟩ := Except.bind_eq_ok.mp h
    obtain rfl := Except.pure_eq_ok.mp h
    rw [Expr.map, hf base y hy, ih hs]
  | arith op l r ihl ihr | compare op l r ihl ihr =>
    obtain ⟨l', hl, h⟩ := Except.bind_eq_ok.mp h
    obtain ⟨r', hr, h⟩ := Except.bind_eq_ok.mp h
    obtain rfl := Except.pure_eq_ok.mp h
    rw [Expr.map, ihl hl, ihr hr]

theorem Place.map_of_resolve {p : Place V P} {p' : Place W Q} (h : p.resolve var' param' = .ok p') :
    p'.map f g = p := by
  cases p with
  | var x | field x name =>
    obtain ⟨y, hy, h⟩ := Except.bind_eq_ok.mp h
    obtain rfl := Except.pure_eq_ok.mp h
    rw [Place.map, hf x y hy]
  | staticField cls name =>
    obtain rfl := Except.ok.inj h
    rfl
  | element base index =>
    obtain ⟨y, hy, h⟩ := Except.bind_eq_ok.mp h
    obtain ⟨s, hs, h⟩ := Except.bind_eq_ok.mp h
    obtain rfl := Except.pure_eq_ok.mp h
    rw [Place.map, hf base y hy, Expr.map_of_resolve hf hg hs]

end Undo

theorem Expr.mem_params_resolve {e : Expr V P} {e' : Expr W Q} (h : e.resolve var' param' = .ok e')
    {q : Q} (hq : q ∈ e'.params) : ∃ p, param' p = .ok q := by
  induction e generalizing e' with
  | int | double | null | self | new | staticField =>
    obtain rfl := Except.ok.inj h
    cases hq
  | param p =>
    obtain ⟨q', hq', h⟩ := Except.bind_eq_ok.mp h
    obtain rfl := Except.pure_eq_ok.mp h
    exact ⟨p, List.mem_singleton.mp hq ▸ hq'⟩
  | var x | field x name =>
    obtain ⟨y, -, h⟩ := Except.bind_eq_ok.mp h
    obtain rfl := Except.pure_eq_ok.mp h
    cases hq
  | newArray item size ih | neg size ih =>
    obtain ⟨s, hs, h⟩ := Except.bind_eq_ok.mp h
    obtain rfl := Except.pure_eq_ok.mp h
    exact ih hs hq
  | element base index ih =>
    obtain ⟨y, -, h⟩ := Except.bind_eq_ok.mp h
    obtain ⟨s, hs, h⟩ := Except.bind_eq_ok.mp h
    obtain rfl := Except.pure_eq_ok.mp h
    exact ih hs hq
  | arith op l r ihl ihr | compare op l r ihl ihr =>
    obtain ⟨l', hl, h⟩ := Except.bind_eq_ok.mp h
    obtain ⟨r', hr, h⟩ := Except.bind_eq_ok.mp h
    obtain rfl := Except.pure_eq_ok.mp h
    exact (List.mem_append.mp hq).elim (ihl hl) (ihr hr)

theorem Place.mem_params_resolve {p : Place V P} {p' : Place W Q}
    (h : p.resolve var' param' = .ok p') {q : Q} (hq : q ∈ p'.params) : ∃ p, param' p = .ok q := by
  cases p with
  | var x | field x name =>
    obtain ⟨y, -, h⟩ := Except.bind_eq_ok.mp h
    obtain rfl := Except.pure_eq_ok.mp h
    cases hq
  | staticField cls name =>
    obtain rfl := Except.ok.inj h
    cases hq
  | element base index =>
    obtain ⟨y, -, h⟩ := Except.bind_eq_ok.mp h
    obtain ⟨s, hs, h⟩ := Except.bind_eq_ok.mp h
    obtain rfl := Except.pure_eq_ok.mp h
    exact Expr.mem_params_resolve hs hq

/-- Only a reference that does not resolve keeps an expression from resolving. -/
theorem Expr.exists_resolve {e : Expr V P} (hvar : ∀ x ∈ e.locals, ∃ y, var' x = .ok y)
    (hparam : ∀ p ∈ e.params, ∃ q, param' p = .ok q) : ∃ e', e.resolve var' param' = .ok e' := by
  induction e with
  | int | double | null | self | new | staticField => exact ⟨_, rfl⟩
  | param p =>
    obtain ⟨q, hq⟩ := hparam p (List.mem_singleton_self p)
    exact ⟨_, Except.bind_eq_ok.mpr ⟨q, hq, rfl⟩⟩
  | var x | field x name =>
    obtain ⟨y, hy⟩ := hvar x (List.mem_singleton_self x)
    exact ⟨_, Except.bind_eq_ok.mpr ⟨y, hy, rfl⟩⟩
  | newArray item size ih | neg size ih =>
    obtain ⟨s, hs⟩ := ih hvar hparam
    exact ⟨_, Except.bind_eq_ok.mpr ⟨s, hs, rfl⟩⟩
  | element base index ih =>
    obtain ⟨y, hy⟩ := hvar base List.mem_cons_self
    obtain ⟨s, hs⟩ := ih (fun x hx => hvar x (List.mem_cons_of_mem base hx)) hparam
    exact ⟨_, Except.bind_eq_ok.mpr ⟨y, hy, Except.bind_eq_ok.mpr ⟨s, hs, rfl⟩⟩⟩
  | arith op l r ihl ihr | compare op l r ihl ihr =>
    obtain ⟨l', hl⟩ := ihl (fun x hx => hvar x (List.mem_append_left _ hx))
      fun p hp => hparam p (List.mem_append_left _ hp)
    obtain ⟨r', hr⟩ := ihr (fun x hx => hvar x (List.mem_append_right _ hx))
      fun p hp => hparam p (List.mem_append_right _ hp)
    exact ⟨_, Except.bind_eq_ok.mpr ⟨l', hl, Except.bind_eq_ok.mpr ⟨r', hr, rfl⟩⟩⟩

theorem Place.exists_resolve {p : Place V P} (hvar : ∀ x ∈ p.locals, ∃ y, var' x = .ok y)
    (hparam : ∀ q ∈ p.params, ∃ q', param' q = .ok q') : ∃ p', p.resolve var' param' = .ok p' := by
  cases p with
  | var x | field x name =>
    obtain ⟨y, hy⟩ := hvar x (List.mem_singleton_self x)
    exact ⟨_, Except.bind_eq_ok.mpr ⟨y, hy, rfl⟩⟩
  | staticField cls name => exact ⟨_, rfl⟩
  | element base index =>
    obtain ⟨y, hy⟩ := hvar base List.mem_cons_self
    obtain ⟨s, hs⟩ := Expr.exists_resolve (fun x hx => hvar x (List.mem_cons_of_mem base hx)) hparam
    exact ⟨_, Except.bind_eq_ok.mpr ⟨y, hy, Except.bind_eq_ok.mpr ⟨s, hs, rfl⟩⟩⟩

end Code

end Lifespan
