import Lifespan.Class
import Lifespan.Term

namespace Lifespan

/-- Variables, each with its position. -/
structure Environment where
  vars : List String
  positions : FinMap String Nat
  nodup : vars.Nodup
  located : positions.Locates vars

namespace Environment

instance : DecidableEq Environment := fun a b =>
  if h : a.vars = b.vars ∧ a.positions = b.positions then isTrue (by cases a; cases b; simp_all)
  else isFalse fun e => h ⟨congrArg vars e, congrArg positions e⟩

abbrev size (env : Environment) : Nat := env.vars.length

/-- Enters variables from position `i` on, up to the first that is there already. -/
def enter (positions : FinMap String Nat) (i : Nat) : List String → Except Error (FinMap String Nat)
  | [] => .ok positions
  | v :: rest =>
    if positions.contains v then .error (.domain (.duplicate v))
    else enter (positions.insert v i) (i + 1) rest

theorem located_of_enter {positions positions' : FinMap String Nat} {seen rest : List String}
    (hseen : positions.Locates seen) (hnodup : seen.Nodup)
    (h : enter positions seen.length rest = .ok positions') :
    (seen ++ rest).Nodup ∧ positions'.Locates (seen ++ rest) := by
  induction rest generalizing positions seen with
  | nil =>
    obtain rfl := Except.ok.inj h
    rw [List.append_nil]
    exact ⟨hnodup, hseen⟩
  | cons v rest ih =>
    rw [enter] at h
    split at h
    case isTrue => cases h
    case isFalse hnew =>
      have hv : v ∉ seen := hseen.get?_eq_none.mp (by simpa [FinMap.contains] using hnew)
      have hnodup' : (seen ++ [v]).Nodup := by
        rw [List.nodup_append]
        exact ⟨hnodup, by simp, fun a ha b hb heq => hv (List.mem_singleton.mp hb ▸ heq ▸ ha)⟩
      have hall := ih (hseen.insert v) hnodup' (by simpa using h)
      rwa [List.append_assoc] at hall

def ofVars (vars : List String) : Except Error Environment :=
  match h : enter FinMap.empty 0 vars with
  | .error e => .error e
  | .ok positions =>
    have hall := located_of_enter FinMap.Locates.empty .nil h
    .ok ⟨vars, positions, hall.1, hall.2⟩

def contains (env : Environment) (v : String) : Bool := env.positions.contains v

def index (env : Environment) (v : String) : Except Error (Fin env.size) :=
  match h : env.positions.get? v with
  | some i => .ok ⟨i, env.located.lt_length h⟩
  | none => .error (.domain (.unknown v))

def text (env : Environment) : String := namesText env.vars

end Environment

/-- Names of the int locals that a body assigns, in order of their first assignment. -/
def assignedInts {n : Nat} (code : List (Instr n)) : List String :=
  code.foldl (fun vars i =>
    match i with
    | .assign (.var x) _ => if x.ty = .int ∧ x.name ∉ vars then vars ++ [x.name] else vars
    | _ => vars) []

def Method.integerLocals (m : Method) : List String :=
  m.body.elim [] fun b => assignedInts b.code.toList

end Lifespan
