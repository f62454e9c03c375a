import Lifespan.Resolver
import Lifespan.Proofs.Cycles
import Mathlib.Logic.Function.Basic

namespace Lifespan

/-- Integer arithmetic; dividing by zero has no value. -/
def ArithOp.apply? : ArithOp → Int → Int → Option Int
  | add, a, b => some (a + b)
  | sub, a, b => some (a - b)
  | mul, a, b => some (a * b)
  | div, a, b => if b = 0 then none else some (a.tdiv b)
  | rem, a, b => if b = 0 then none else some (a.tmod b)

def CmpOp.holds : CmpOp → Int → Int → Bool
  | eq, a, b => a = b
  | ne, a, b => a ≠ b
  | gt, a, b => b < a
  | ge, a, b => b ≤ a
  | lt, a, b => a < b
  | le, a, b => a ≤ b

namespace Code.Expr

/-- The integers that an expression may be worth, by the arguments of the method and its int locals.
The heap may hold any. -/
inductive Value (args : Nat → Int) (ints : String → Int) : Expr Local Param → Int → Prop
  | int (v : Int) : Value args ints (.int v) v
  | param {p : Param} (ty : p.ty = .int) : Value args ints (.param p) (args p.index)
  | var {x : Local} (ty : x.ty = .int) : Value args ints (.var x) (ints x.name)
  | field (base : Local) (name : String) (v : Int) : Value args ints (.field base name) v
  | staticField (cls name : String) (v : Int) : Value args ints (.staticField cls name) v
  | element (base : Local) (index : Expr Local Param) (v : Int) :
    Value args ints (.element base index) v
  | neg {e : Expr Local Param} {v : Int} (operand : Value args ints e v) :
    Value args ints (.neg e) (-v)
  | arith {op : ArithOp} {l r : Expr Local Param} {a b v : Int} (left : Value args ints l a)
      (right : Value args ints r b) (result : op.apply? a b = some v) :
        Value args ints (.arith op l r) v

/-- The outcomes that a condition may have. One that does not compare integers may have either. -/
inductive Outcome (args : Nat → Int) (ints : String → Int) : Expr Local Param → Bool → Prop
  | compare (op : CmpOp) {l r : Expr Local Param} {a b : Int} (left : l.Value args ints a)
      (right : r.Value args ints b) : Outcome args ints (.compare op l r) (op.holds a b)
  | free {e : Expr Local Param} (outcome : Bool)
      (h : ∀ op l r, e = .compare op l r → ∀ a b, l.Value args ints a → ¬ r.Value args ints b) :
      Outcome args ints e outcome

end Code.Expr

/-- An interval that was constructed: by which instruction, of which object of the run, from what
to what. -/
structure Construction (n : Nat) where
  index : Fin n
  object : Option Nat
  start : Int
  finish : Int

/-- A method with `n` instructions about to execute the one at `pc`. -/
structure Machine (n : Nat) where
  pc : Fin n
  ints : String → Int
  refs : String → Option Nat
  /-- Where each object of the run was allocated. -/
  allocations : List (Fin n)
  constructions : List (Construction n)

namespace Machine

variable {n : Nat}

/-- Before the first instruction. -/
structure Fresh (σ : Machine n) : Prop where
  pc : σ.pc.val = 0
  refs : ∀ x, σ.refs x = none
  allocations : σ.allocations = []
  constructions : σ.constructions = []

/-- Assigns an int local. -/
def setInt (σ : Machine n) (x : String) (v : Int) : Machine n :=
  { σ with ints := Function.update σ.ints x v }

/-- Assigns a reference. -/
def setRef (σ : Machine n) (x : String) : Expr → Machine n
  | .new _ | .newArray .. => { σ with
      refs := Function.update σ.refs x (some σ.allocations.length)
      allocations := σ.allocations ++ [σ.pc] }
  | .var y => { σ with refs := Function.update σ.refs x (σ.refs y.name) }
  | _ => { σ with refs := Function.update σ.refs x none }

def construct (σ : Machine n) (receiver : Option Local) (start finish : Int) : Machine n :=
  { σ with constructions :=
      ⟨σ.pc, receiver.bind fun x => σ.refs x.name, start, finish⟩ :: σ.constructions }

def goto (σ : Machine n) (j : Fin n) : Machine n := { σ with pc := j }

end Machine

/-- The start and the end that a call gives to an interval. -/
def Settings.bounds? (s : Settings) (c : Call) : Option (Expr × Expr) :=
  if s.isInitializer c then
    match c.args with
    | [start, finish] => some (start, finish)
    | _ => none
  else none

theorem Settings.of_bounds? {s : Settings} {c : Call} {start finish : Expr}
    (h : s.bounds? c = some (start, finish)) :
    c.kind = .special ∧ s.isInitializer c = true ∧ c.args = [start, finish] := by
  unfold bounds? at h
  split at h
  case isTrue hinit =>
    have hkind : c.kind = .special := by
      simp only [isInitializer, Bool.and_eq_true, beq_iff_eq] at hinit
      exact hinit.1.1
    split at h
    case h_1 hargs =>
      obtain ⟨rfl, rfl⟩ := Prod.mk.inj (Option.some.inj h)
      exact ⟨hkind, hinit, hargs⟩
    case h_2 => cases h
  case isFalse => cases h

/-- What executing an instruction may do, by the edge on which control leaves it. -/
inductive Effect (s : Settings) (args : Nat → Int) {n : Nat} (σ : Machine n) :
    Instr n → Edge → Machine n → Prop
  | assignInt {x : Local} {e : Expr} {v : Int} (ty : x.ty = .int) (value : e.Value args σ.ints v) :
      Effect s args σ (.assign (.var x) e) .fall (σ.setInt x.name v)
  | assignRef {x : Local} (e : Expr) (ty : x.ty.isReference = true) :
      Effect s args σ (.assign (.var x) e) .fall (σ.setRef x.name e)
  | assignOther {target : Place} (e : Expr) (h : ∀ x, target = .var x → x.ty = .double) :
      Effect s args σ (.assign target e) .fall σ
  | pass {cond : Expr} {t : Fin n} (outcome : cond.Outcome args σ.ints false) :
      Effect s args σ (.branch cond t) .fall σ
  | take {cond : Expr} {t : Fin n} (outcome : cond.Outcome args σ.ints true) :
      Effect s args σ (.branch cond t) .branch σ
  | goto (t : Fin n) : Effect s args σ (.goto t) .branch σ
  | call {c : Call} (h : s.bounds? c = none) : Effect s args σ (.call c) .fall σ
  | construct {c : Call} {start finish : Expr} {a e : Int} (h : s.bounds? c = some (start, finish))
      (first : start.Value args σ.ints a) (last : finish.Value args σ.ints e) :
      Effect s args σ (.call c) .fall (σ.construct c.receiver a e)

namespace Body

/-- Where control goes from `i` on an edge. -/
def Leads (b : Body) (i : Fin b.size) : Edge → Fin b.size → Prop
  | .fall, j => j.val = i.val + 1
  | .branch, j => (b.code.get i).target? = some j

/-- One step of a run. -/
inductive Step (b : Body) (s : Settings) (args : Nat → Int) (σ : Machine b.size) :
    Edge → Machine b.size → Prop
  | mk {e : Edge} {τ : Machine b.size} {j : Fin b.size}
      (effect : Effect s args σ (b.code.get σ.pc) e τ) (leads : b.Leads σ.pc e j) :
      Step b s args σ e (τ.goto j)

/-- The machine comes up in a run with these arguments. -/
inductive Reachable (b : Body) (s : Settings) (args : Nat → Int) : Machine b.size → Prop
  | start {σ : Machine b.size} (h : σ.Fresh) : Reachable b s args σ
  | step {σ τ : Machine b.size} {e : Edge} (reached : Reachable b s args σ)
    (h : b.Step s args σ e τ) :
      Reachable b s args τ

variable {b : Body} {s : Settings} {args : Nat → Int} {σ τ : Machine b.size} {e : Edge}

theorem mem_successors_of_leads {i j : Fin b.size}
    (hfall : e = .fall → (b.code.get i).fallsThrough = true) (h : b.Leads i e j) :
    (j, e) ∈ b.graph.successors i := by
  apply Graph.mem_successors_ofCode.mpr
  cases e with
  | fall => exact .inl ⟨rfl, hfall rfl, h⟩
  | branch => exact .inr ⟨rfl, h⟩

end Body

namespace Effect

variable {s : Settings} {args : Nat → Int} {n : Nat} {σ τ : Machine n} {instr : Instr n} {e : Edge}

theorem fallsThrough (h : Effect s args σ instr e τ) (he : e = .fall) :
    instr.fallsThrough = true := by
  subst he
  cases h <;> rfl

/-- An effect constructs no interval, or one at the instruction that has it. -/
theorem constructions_cases (h : Effect s args σ instr e τ) :
    τ.constructions = σ.constructions ∨
      ∃ k, k.index = σ.pc ∧ τ.constructions = k :: σ.constructions := by
  cases h with
  | assignRef value _ =>
    left
    cases value <;> rfl
  | construct => exact .inr ⟨_, rfl, rfl⟩
  | _ => exact .inl rfl

/-- Objects stay allocated where they were. -/
theorem getElem?_allocations (h : Effect s args σ instr e τ) {o : Nat} {a : Fin n}
    (ha : σ.allocations[o]? = some a) : τ.allocations[o]? = some a := by
  cases h with
  | assignRef value _ =>
    cases value with
    | new | newArray =>
      exact (List.getElem?_append_left (List.getElem?_eq_some_iff.mp ha).1).trans ha
    | _ => exact ha
  | _ => exact ha

end Effect

namespace Body

variable {b : Body} {s : Settings} {args : Nat → Int} {σ τ : Machine b.size} {e : Edge}

/-- Control never falls off the end. -/
theorem exists_leads_fall {i : Fin b.size} (h : (b.code.get i).fallsThrough = true) :
    ∃ j, b.Leads i .fall j := by
  refine ⟨⟨i.val + 1, ?_⟩, rfl⟩
  apply Nat.lt_of_le_of_ne i.isLt
  intro hlast
  have hi : b.size - 1 = i.val := by omega
  have hends := b.ends
  simp only [hi] at hends
  rw [Vector.get_eq_getElem, hends] at h
  cases h

theorem Step.adj (h : b.Step s args σ e τ) : (τ.pc, e) ∈ b.graph.successors σ.pc := by
  obtain ⟨effect, leads⟩ := h
  exact mem_successors_of_leads effect.fallsThrough leads

/-- A path leads from where an interval was constructed to where control is now. -/
theorem Reachable.transGen_of_mem (h : b.Reachable s args σ) :
    ∀ k ∈ σ.constructions, Relation.TransGen b.graph.Adj k.index σ.pc := by
  induction h with
  | start h =>
    intro k hk
    rw [h.constructions] at hk
    cases hk
  | @step σ τ e _ h ih =>
    have hadj : b.graph.Adj σ.pc τ.pc := Graph.adj_iff.mpr ⟨e, h.adj⟩
    obtain ⟨effect, leads⟩ := h
    intro k hk
    rcases effect.constructions_cases with hsame | ⟨new, hnew, hcons⟩
    · exact (ih k (hsame ▸ hk)).tail hadj
    · rcases List.mem_cons.mp (hcons ▸ hk) with rfl | hold
      · rw [hnew]
        exact .single hadj
      · exact (ih k hold).tail hadj

/-- Off the cycles of the code an instruction constructs its interval only once. -/
theorem Reachable.index_ne_of_not_onCycle (h : b.Reachable s args σ)
    (hc : b.graph.isOnCycle σ.pc = false) : ∀ k ∈ σ.constructions, k.index ≠ σ.pc := by
  intro k hk heq
  have hpath := h.transGen_of_mem k hk
  rw [heq] at hpath
  have hcycle := Graph.isOnCycle_iff_transGen.mpr hpath
  rw [hc] at hcycle
  cases hcycle

end Body

end Lifespan
