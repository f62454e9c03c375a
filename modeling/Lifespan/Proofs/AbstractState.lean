import Lifespan.AbstractState
import Lifespan.Proofs.Logged
import Lifespan.Proofs.Octagon.Transfer

namespace Lifespan

namespace Term

variable {α β ε : Type}

/-- The variables that occur. -/
def vars : Term α → List α
  | const _ => []
  | var x => [x]
  | add l r | sub l r | mul l r => l.vars ++ r.vars

theorem eval_congr {t : Term α} {v w : α → Int} (h : ∀ x ∈ t.vars, v x = w x) :
    t.eval v = t.eval w := by
  induction t with
  | const c => rfl
  | var x => exact h x (List.mem_singleton_self x)
  | add l r ihl ihr | sub l r ihl ihr | mul l r ihl ihr =>
    rw [eval, eval, ihl fun x hx => h x (List.mem_append_left _ hx),
      ihr fun x hx => h x (List.mem_append_right _ hx)]

/-- Bounded arithmetic gives the exact value where it gives one. -/
theorem eval_of_eval? {t : Term α} {v : α → Option Int} {w : α → Int}
    (hv : ∀ x c, v x = some c → w x = c) {c : Int} (h : t.eval? v = some c) : t.eval w = c := by
  induction t generalizing c with
  | const d => exact Option.some.inj h
  | var x => exact hv x c h
  | add l r ihl ihr | sub l r ihl ihr | mul l r ihl ihr =>
    simp only [eval?, Option.bind_eq_bind, Option.bind_eq_some_iff] at h
    obtain ⟨a, ha, b, hb, h⟩ := h
    rw [eval, ihl ha, ihr hb, signed?_eq_some h]

theorem eval_of_constant? {t : Term α} {c : Int} (h : t.constant? = some c) (w : α → Int) :
    t.eval w = c :=
  eval_of_eval? (v := fun _ => none) (by simp) h

/-- Resolving keeps the value, and every variable is resolved. -/
theorem eval_resolve {f : α → Except ε β} {v : α → Int} {w : β → Int}
    (hf : ∀ x y, f x = .ok y → w y = v x) {t : Term α} {t' : Term β} (h : t.resolve f = .ok t') :
    t'.eval w = t.eval v ∧ ∀ x ∈ t.vars, ∃ y, f x = .ok y := by
  induction t generalizing t' with
  | const c =>
    obtain rfl := Except.ok.inj h
    exact ⟨rfl, by simp [vars]⟩
  | var x =>
    obtain ⟨y, hy, h⟩ := Except.bind_eq_ok.mp h
    obtain rfl := Except.pure_eq_ok.mp h
    exact ⟨hf x y hy, by simp [vars, hy]⟩
  | add l r ihl ihr | sub l r ihl ihr | mul l r ihl ihr =>
    obtain ⟨l', hl, h⟩ := Except.bind_eq_ok.mp h
    obtain ⟨r', hr, h⟩ := Except.bind_eq_ok.mp h
    obtain rfl := Except.pure_eq_ok.mp h
    obtain ⟨hlv, hlx⟩ := ihl hl
    obtain ⟨hrv, hrx⟩ := ihr hr
    exact ⟨by rw [eval, eval, hlv, hrv], fun x hx => (List.mem_append.mp hx).elim (hlx x) (hrx x)⟩

/-- The variables of the result come from those of the term. -/
theorem exists_mem_vars_of_resolve {f : α → Except ε β} {t : Term α} {t' : Term β}
    (h : t.resolve f = .ok t') {y : β} (hy : y ∈ t'.vars) : ∃ x ∈ t.vars, f x = .ok y := by
  induction t generalizing t' with
  | const c =>
    obtain rfl := Except.ok.inj h
    cases hy
  | var x =>
    obtain ⟨z, hz, h⟩ := Except.bind_eq_ok.mp h
    obtain rfl := Except.pure_eq_ok.mp h
    obtain rfl := List.mem_singleton.mp hy
    exact ⟨x, List.mem_singleton_self x, hz⟩
  | add l r ihl ihr | sub l r ihl ihr | mul l r ihl ihr =>
    obtain ⟨l', hl, h⟩ := Except.bind_eq_ok.mp h
    obtain ⟨r', hr, h⟩ := Except.bind_eq_ok.mp h
    obtain rfl := Except.pure_eq_ok.mp h
    rcases List.mem_append.mp hy with hy | hy
    · obtain ⟨x, hx, hxy⟩ := ihl hl hy
      exact ⟨x, List.mem_append_left _ hx, hxy⟩
    · obtain ⟨x, hx, hxy⟩ := ihr hr hy
      exact ⟨x, List.mem_append_right _ hx, hxy⟩

end Term

/-- Where bounded arithmetic gives an answer, it is that of exact arithmetic. -/
theorem Constraint.holds_of_holds? {α : Type} {c : Constraint α} {v : α → Option Int} {w : α → Int}
    (hv : ∀ x k, v x = some k → w x = k) {answer : Bool} (h : c.holds? v = some answer) :
    answer = true ↔ c.Holds w := by
  obtain ⟨k, hk, rfl⟩ := Option.map_eq_some_iff.mp h
  rw [decide_eq_true_iff, Constraint.Holds, Term.eval_of_eval? hv hk]

namespace Environment

variable {env : Environment} {s t : Octagon env.size} {v : String → Int}

theorem exists_enter {positions : FinMap String Nat} {seen rest : List String}
    (hseen : positions.Locates seen) (h : (seen ++ rest).Nodup) :
    ∃ positions', enter positions seen.length rest = .ok positions' := by
  induction rest generalizing positions seen with
  | nil => exact ⟨positions, rfl⟩
  | cons v rest ih =>
    have hnew : v ∉ seen := fun hv =>
      (List.nodup_append.mp h).2.2 v hv v List.mem_cons_self rfl
    have hnone := hseen.get?_eq_none.mpr hnew
    obtain ⟨positions', hrest⟩ := ih (hseen.insert v) (by simpa using h)
    refine ⟨positions', ?_⟩
    rw [enter, if_neg (by simp [FinMap.contains, hnone])]
    simpa using hrest

theorem exists_ofVars {vars : List String} (h : vars.Nodup) :
    ∃ env, ofVars vars = .ok env := by
  obtain ⟨positions, henter⟩ := exists_enter FinMap.Locates.empty h
  unfold ofVars
  split
  case h_1 e he =>
    rw [List.length_nil, he] at henter
    cases henter
  case h_2 => exact ⟨_, rfl⟩

theorem vars_of_ofVars {vars : List String} {env : Environment}
    (h : ofVars vars = .ok env) : env.vars = vars := by
  unfold ofVars at h
  split at h
  case h_1 => cases h
  case h_2 =>
    obtain rfl := Except.ok.inj h
    rfl

/-- The environment of variables that differ. -/
def ofNodup (vars : List String) (h : vars.Nodup) : Environment where
  vars := vars
  positions := (enter FinMap.empty 0 vars).toOption.getD FinMap.empty
  nodup := h
  located := by
    obtain ⟨positions, henter⟩ := exists_enter FinMap.Locates.empty h
    rw [List.length_nil] at henter
    rw [henter]
    exact (located_of_enter FinMap.Locates.empty .nil henter).2

@[simp]
theorem vars_ofNodup {vars : List String} (h : vars.Nodup) : (ofNodup vars h).vars = vars := rfl

/-- The values of the variables of the environment. -/
def point (env : Environment) (v : String → Int) : Fin env.size → Int := fun i => v (env.vars.get i)

theorem get_of_index {x : String} {i : Fin env.size} (h : env.index x = .ok i) :
    env.vars.get i = x := by
  unfold index at h
  split at h
  case h_1 j hj =>
    obtain rfl := Except.ok.inj h
    exact (List.getElem?_eq_some_iff.mp (env.located.found hj)).2
  case h_2 => cases h

theorem mem_of_index {x : String} {i : Fin env.size} (h : env.index x = .ok i) : x ∈ env.vars := by
  rw [← get_of_index h]
  exact List.get_mem env.vars i

theorem point_update {x : String} {i : Fin env.size} (h : env.index x = .ok i) (v : String → Int)
    (c : Int) : Function.update (env.point v) i c = env.point (Function.update v x c) := by
  funext j
  by_cases hj : j = i
  · subst hj
    rw [Function.update_self, point, get_of_index h, Function.update_self]
  · have hne : env.vars.get j ≠ x := by
      rw [← get_of_index h]
      exact fun heq => hj (List.nodup_iff_injective_get.mp env.nodup heq)
    rw [Function.update_of_ne hj, point, point, Function.update_of_ne hne]

/-- A term over the environment has the value it has at the names. -/
theorem eval_resolve {u : Term String} {u' : Term (Fin env.size)} (h : u.resolve env.index = .ok u')
    (v : String → Int) : u'.eval (env.point v) = u.eval v :=
  (Term.eval_resolve (fun _ _ hx => by rw [point, get_of_index hx]) h).1

theorem mem_of_resolve {u : Term String} {u' : Term (Fin env.size)}
    (h : u.resolve env.index = .ok u') {x : String} (hx : x ∈ u.vars) : x ∈ env.vars := by
  have hvars := (Term.eval_resolve (v := fun _ => 0) (w := fun _ => 0) (fun _ _ _ => rfl) h).2
  obtain ⟨i, hi⟩ := hvars x hx
  exact mem_of_index hi

theorem index_eq_error {x : String} {e : Error} (h : env.index x = .error e) :
    x ∉ env.vars ∧ e = .domain (.unknown x) := by
  unfold index at h
  split at h
  case h_1 => cases h
  case h_2 hnone => exact ⟨env.located.get?_eq_none.mp hnone, (Except.error.inj h).symm⟩

/-- Only an unknown variable keeps a term from being resolved. -/
theorem resolve_eq_error {u : Term String} {e : Error} (h : u.resolve env.index = .error e) :
    ∃ x ∈ u.vars, x ∉ env.vars ∧ e = .domain (.unknown x) := by
  induction u with
  | const c => cases h
  | var x =>
    rcases Except.bind_eq_error.mp h with h | ⟨i, -, h⟩
    · exact ⟨x, List.mem_singleton_self x, index_eq_error h⟩
    · cases h
  | add l r ihl ihr | sub l r ihl ihr | mul l r ihl ihr =>
    rcases Except.bind_eq_error.mp h with h | ⟨l', -, h⟩
    · obtain ⟨x, hx, hout⟩ := ihl h
      exact ⟨x, List.mem_append_left _ hx, hout⟩
    rcases Except.bind_eq_error.mp h with h | ⟨r', -, h⟩
    · obtain ⟨x, hx, hout⟩ := ihr h
      exact ⟨x, List.mem_append_right _ hx, hout⟩
    · cases h

theorem entailsGe_eq_error {l r : Term String} {e : Error} (h : env.entailsGe s l r = .error e) :
    ∃ x ∈ l.vars ++ r.vars, x ∉ env.vars ∧ e = .domain (.unknown x) := by
  unfold entailsGe at h
  split at h
  · cases h
  · rcases Except.bind_eq_error.mp h with h | ⟨c, -, h⟩
    · rcases Except.bind_eq_error.mp h with h | ⟨u, -, h⟩
      · exact resolve_eq_error h
      · cases h
    · cases h

theorem point_meet (hs : s.Point (env.point v)) {c : Constraint String} (hc : c.Holds v)
    (h : env.meet s c = .ok t) : t.Point (env.point v) := by
  obtain ⟨c', hc', h⟩ := Except.bind_eq_ok.mp h
  obtain ⟨u, hu, hr⟩ := Except.bind_eq_ok.mp hc'
  obtain rfl := Except.pure_eq_ok.mp hr
  obtain rfl := Except.pure_eq_ok.mp h
  apply hs.meet
  change c.relation.Holds (u.eval (env.point v))
  rw [eval_resolve hu]
  exact hc

theorem point_assign (hs : s.Point (env.point v)) {x : String} {u : Term String}
    (h : env.assign s x u = .ok t) : t.Point (env.point (Function.update v x (u.eval v))) := by
  obtain ⟨i, hi, h⟩ := Except.bind_eq_ok.mp h
  obtain ⟨u', hu, h⟩ := Except.bind_eq_ok.mp h
  obtain rfl := Except.pure_eq_ok.mp h
  rw [← point_update hi, ← eval_resolve hu]
  exact hs.assign i u'

theorem mem_of_assign {x : String} {u : Term String} (h : env.assign s x u = .ok t) :
    x ∈ env.vars ∧ ∀ y ∈ u.vars, y ∈ env.vars := by
  obtain ⟨i, hi, h⟩ := Except.bind_eq_ok.mp h
  obtain ⟨u', hu, h⟩ := Except.bind_eq_ok.mp h
  exact ⟨mem_of_index hi, fun y hy => mem_of_resolve hu hy⟩

theorem mem_of_meet {c : Constraint String} (h : env.meet s c = .ok t) :
    ∀ x ∈ c.term.vars, x ∈ env.vars := by
  obtain ⟨c', hc', h⟩ := Except.bind_eq_ok.mp h
  obtain ⟨u, hu, hr⟩ := Except.bind_eq_ok.mp hc'
  exact fun x hx => mem_of_resolve hu hx

/-- What a state entails holds at its points. -/
theorem le_of_entailsGe (hs : s.Point (env.point v)) {l r : Term String}
    (h : env.entailsGe s l r = .ok true) : r.eval v ≤ l.eval v := by
  unfold entailsGe at h
  split at h
  case h_1 a b ha hb =>
    rw [Term.eval_of_constant? ha, Term.eval_of_constant? hb]
    simpa using h
  case h_2 =>
    obtain ⟨c', hc', h⟩ := Except.bind_eq_ok.mp h
    obtain ⟨u, hu, hr⟩ := Except.bind_eq_ok.mp hc'
    obtain rfl := Except.pure_eq_ok.mp hr
    have hholds := hs.holds_of_satisfies (Except.pure_eq_ok.mp h)
    change 0 ≤ u.eval (env.point v) at hholds
    rw [eval_resolve hu] at hholds
    change 0 ≤ l.eval v - r.eval v at hholds
    omega

end Environment

end Lifespan
