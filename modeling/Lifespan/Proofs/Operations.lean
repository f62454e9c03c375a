import Lifespan.Proofs.AbstractState
import Lifespan.Proofs.Octagon.Order

namespace Lifespan

variable {n : Nat} {v : Fin n → Int}

namespace Matrix

variable {m k : Matrix n}

/-- A cell that was refined allows no more than it did. -/
theorem Point.of_refine {i j : Literal n} {c : Int} (h : (m.refine i j c).Point v) : m.Point v :=
  (refines_refine m i j c).point h

theorem Point.of_addNonneg {f : Linear n} (hk : m.addNonneg f = some k) (h : k.Point v) :
    m.Point v :=
  (refines_of_addNonneg hk).point h

end Matrix

/-- A meet keeps every bound of the closed matrix. -/
theorem Octagon.refines_of_meet {s : Octagon n} {c : Constraint (Fin n)} {m k : Matrix n}
    (hm : s.closure? = some m) (hk : (s.meet c).closure? = some k) : k.Refines m := by
  rw [meet, hm] at hk
  dsimp only at hk
  cases hf : c.term.linear? with
  | none =>
    rw [hf] at hk
    dsimp only at hk
    split at hk
    · cases hk
    · rw [closure?_ofMatrix] at hk
      exact Matrix.refines_of_close? hk
  | some f =>
    rw [hf] at hk
    dsimp only at hk
    cases hadd : m.addLinear f c.relation with
    | none =>
      rw [hadd] at hk
      cases hk
    | some k' =>
      rw [hadd] at hk
      dsimp only at hk
      rw [closure?_ofMatrix] at hk
      exact (Matrix.refines_of_close? hk).trans (Matrix.refines_of_addLinear hadd)

theorem Octagon.Point.of_meet {s : Octagon n} {c : Constraint (Fin n)} (h : (s.meet c).Point v) :
    s.Point v := by
  cases hm : s.closure? with
  | none =>
    rw [Octagon.meet, hm] at h
    exact (not_point_empty h).elim
  | some m =>
    obtain ⟨k, hk, hkv⟩ := point_iff_closure?.mp h
    exact (point_of_closure? hm).mpr ((refines_of_meet hm hk).point hkv)

namespace Environment

variable {env : Environment}

theorem exists_index {x : String} (h : x ∈ env.vars) : ∃ i, env.index x = .ok i := by
  cases hx : env.index x with
  | ok i => exact ⟨i, rfl⟩
  | error e => exact absurd h (index_eq_error hx).1

/-- A variable is found at its position, since it is at no other. -/
theorem index_eq_ok {x : String} {i : Fin env.size} : env.index x = .ok i ↔ env.vars.get i = x := by
  refine ⟨get_of_index, ?_⟩
  rintro rfl
  obtain ⟨j, hj⟩ := exists_index (List.get_mem env.vars i)
  rw [hj, List.nodup_iff_injective_get.mp env.nodup (get_of_index hj)]

theorem index_eq_error_iff {x : String} : env.index x = .error (.domain (.unknown x)) ↔
    x ∉ env.vars := by
  refine ⟨fun h => (index_eq_error h).1, fun h => ?_⟩
  cases hx : env.index x with
  | ok i => exact absurd (mem_of_index hx) h
  | error e => rw [(index_eq_error hx).2]

theorem exists_resolve {u : Term String} (h : ∀ x ∈ u.vars, x ∈ env.vars) :
    ∃ u', u.resolve env.index = .ok u' := by
  cases hu : u.resolve env.index with
  | ok u' => exact ⟨u', rfl⟩
  | error e =>
    obtain ⟨x, hx, hout, -⟩ := resolve_eq_error hu
    exact absurd (h x hx) hout

theorem exists_meet (s : Octagon env.size) {c : Constraint String}
    (h : ∀ x ∈ c.term.vars, x ∈ env.vars) :
    ∃ c', env.meet s c = .ok (s.meet c') := by
  obtain ⟨u, hu⟩ := exists_resolve h
  refine ⟨⟨u, c.relation⟩, Except.bind_eq_ok.mpr ⟨⟨u, c.relation⟩, ?_, rfl⟩⟩
  exact Except.bind_eq_ok.mpr ⟨u, hu, rfl⟩

theorem exists_assign (s : Octagon env.size) {x : String} {u : Term String} (hx : x ∈ env.vars)
    (hu : ∀ y ∈ u.vars, y ∈ env.vars) : ∃ t, env.assign s x u = .ok t := by
  obtain ⟨i, hi⟩ := exists_index hx
  obtain ⟨u', hu'⟩ := exists_resolve hu
  exact ⟨_, Except.bind_eq_ok.mpr ⟨i, hi, Except.bind_eq_ok.mpr ⟨u', hu', rfl⟩⟩⟩

end Environment

namespace AbstractState

/-- The valuation of names is a point of the state. -/
def Point (s : AbstractState) (v : String → Int) : Prop := s.shape.Point (s.env.point v)

/-- A meet is defined for every constraint over the environment, and its points lie between those of
the state that satisfy the constraint and all of them. -/
theorem meet_between (s : AbstractState) (c : Constraint String)
    (hc : ∀ x ∈ c.term.vars, x ∈ s.env.vars) :
    ∃ t, s.meet c = .ok t ∧ t.env = s.env ∧
      (∀ v, s.Point v → c.Holds v → t.Point v) ∧ ∀ v, t.Point v → s.Point v := by
  obtain ⟨c', hmeet⟩ := Environment.exists_meet s.shape hc
  refine ⟨⟨s.env, s.shape.meet c'⟩, Except.bind_eq_ok.mpr ⟨_, hmeet, rfl⟩, rfl, ?_, ?_⟩
  · intro v hv hholds
    exact Environment.point_meet hv hholds hmeet
  · intro v hv
    exact Octagon.Point.of_meet hv

/-- Either `x` is 1 or it is 4; a join, so its matrix is not closed. -/
def forked : AbstractState where
  env := .ofNodup ["y", "z", "x"] (by decide)
  shape := ((Octagon.top 3).assign (Fin.last 2) (.const 1)).join
    ((Octagon.top 3).assign (Fin.last 2) (.const 4))

theorem point_forked {v : String → Int} (h : v "x" = 4) : forked.Point v := by
  let w : Fin 3 → Int := forked.env.point v
  have hsame : Function.update w (Fin.last 2) 4 = w := Function.update_eq_self_iff.mpr h.symm
  have hassign : ((Octagon.top 3).assign (Fin.last 2) (.const 4)).Point
      (Function.update w (Fin.last 2) 4) :=
    (Octagon.point_top w).assign (Fin.last 2) (.const 4)
  rw [hsame] at hassign
  exact Octagon.Point.join (.inr hassign)

/-- A constraint on three variables, of which each is bounded through the others. -/
def slope : Constraint String :=
  ⟨.sub (.add (.mul (.const 2) (.var "x")) (.mul (.const 3) (.var "y"))) (.var "z"), .gt⟩

theorem meet_between_forked :
    ∃ t, forked.meet slope = .ok t ∧ t.Point (fun _ => 4) ∧ ∀ v, t.Point v → forked.Point v := by
  obtain ⟨t, ht, -, hkeep, hback⟩ := meet_between forked slope (by decide)
  have hholds : (0 : Int) < 2 * 4 + 3 * 4 - 4 := by decide
  exact ⟨t, ht, hkeep _ (point_forked rfl) hholds, hback⟩

/-- An assignment of a term over the environment is defined, and takes every point of the state to
the point with the value of the term. -/
theorem assign_moves (s : AbstractState) (x : String) (u : Term String) (hx : x ∈ s.env.vars)
    (hu : ∀ y ∈ u.vars, y ∈ s.env.vars) :
    ∃ t, s.assign x u = .ok t ∧ t.env = s.env ∧
      ∀ v, s.Point v → t.Point (Function.update v x (u.eval v)) := by
  obtain ⟨shape, hassign⟩ := Environment.exists_assign s.shape hx hu
  refine ⟨⟨s.env, shape⟩, Except.bind_eq_ok.mpr ⟨shape, hassign, rfl⟩, rfl, ?_⟩
  intro v hv
  exact Environment.point_assign hv hassign

theorem assign_moves_forked :
    ∃ t, forked.assign "x" (.sub (.var "y") (.mul (.var "x") (.var "x"))) = .ok t ∧
      t.Point (Function.update (fun _ => 4) "x" (-12)) := by
  obtain ⟨t, ht, -, hmove⟩ := assign_moves forked "x" (.sub (.var "y") (.mul (.var "x") (.var "x")))
    (by decide) (by decide)
  exact ⟨t, ht, hmove _ (point_forked rfl)⟩

end AbstractState

end Lifespan
