import Lifespan.AbstractState
import Lifespan.Proofs.Octagon.Canonical
import Lifespan.Proofs.Octagon.Entailment

namespace Lifespan

namespace Bound

variable {a b : Bound} {c : Int}

theorem max_le_finite : max a b ≤ finite c ↔ a ≤ finite c ∧ b ≤ finite c := by
  change Bound.max a b ≤ finite c ↔ _
  cases a <;> cases b <;> simp only [Bound.max, finite_le_finite, not_absent_le,
    false_and, and_false]
  split <;> omega

theorem eq_of_max_eq_finite (h : max a b = finite c) : a = finite c ∨ b = finite c := by
  change Bound.max a b = finite c at h
  cases a <;> cases b <;> simp only [Bound.max, reduceCtorEq] at h
  split at h
  · exact .inr h
  · exact .inl h

end Bound

variable {n : Nat}

namespace Matrix

variable {m k : Matrix n} {i j : Literal n} {c : Int}

theorem bounds_join : (m.join k).Bounds i j c ↔ m.Bounds i j c ∧ k.Bounds i j c := by
  rw [Bounds, get_join]
  exact Bound.max_le_finite

instance : Std.Commutative (join (n := n)) where
  comm m k := ext_bounds fun i j c => by simp only [bounds_join, and_comm]

instance : Std.Associative (join (n := n)) where
  assoc m k l := ext_bounds fun i j c => by simp only [bounds_join, and_assoc]

instance : Std.IdempotentOp (join (n := n)) where
  idempotent m := ext_bounds fun i j c => by simp only [bounds_join, and_self]

/-- What follows from bounds of both follows on either side. -/
theorem Tight.join (hm : m.Tight) (hk : k.Tight) : (m.join k).Tight where
  toRegular := hm.toRegular.join hk.toRegular
  through l i j a b ha hb := by
    rw [bounds_join] at ha hb ⊢
    exact ⟨hm.through l i j a b ha.1 hb.1, hk.through l i j a b ha.2 hb.2⟩
  even i c hc := by
    rw [get_join] at hc
    rcases Bound.eq_of_max_eq_finite hc with h | h
    · exact hm.even i c h
    · exact hk.even i c h
  strong i j a b ha hb := by
    rw [bounds_join] at ha hb ⊢
    exact ⟨hm.strong i j a b ha.1 hb.1, hk.strong i j a b ha.2 hb.2⟩

end Matrix

namespace Octagon

variable {a b c : Octagon n} {i j : Literal n} {e : Int} {v : Fin n → Int}

/-- What closing gives is tight. -/
def Normal (s : Octagon n) : Prop := ∀ m, s.closure? = some m → m.Tight

theorem Built.normal {s : Octagon n} (h : Built Matrix.Small s) (hs : s.Closable) : s.Normal :=
  fun _ hm => h.tight_of_closure? hs hm

theorem normal_empty : (empty : Octagon n).Normal := by
  intro m h
  cases h

namespace Normal

/-- The closure of a join is the join of the closures. -/
theorem closure?_join (ha : a.Normal) (hb : b.Normal) :
    (a.join b).closure? = Option.merge Matrix.join a.closure? b.closure? := by
  unfold Octagon.join
  cases hma : a.closure? with
  | none =>
    cases hmb : b.closure? with
    | none => rfl
    | some k => exact (hb k hmb).close?_eq
  | some m =>
    cases hmb : b.closure? with
    | none => exact (ha m hma).close?_eq
    | some k => exact ((ha m hma).join (hb k hmb)).close?_eq

/-- What holds of both closures and is kept by joining matrices holds of the closure of the join. -/
theorem join_induction {P : Matrix n → Prop} (ha : a.Normal) (hb : b.Normal)
    (hleft : ∀ m, a.closure? = some m → P m) (hright : ∀ k, b.closure? = some k → P k)
    (hjoin : ∀ m k, P m → P k → P (m.join k)) {q : Matrix n} (hq : (a.join b).closure? = some q) :
    P q := by
  rw [ha.closure?_join hb] at hq
  cases hma : a.closure? with
  | none =>
    rw [hma, Option.merge_none_left] at hq
    exact hright q hq
  | some m =>
    cases hmb : b.closure? with
    | none =>
      rw [hmb, Option.merge_none_right] at hq
      exact hleft q hq
    | some k =>
      rw [hma, hmb] at hq
      obtain rfl := Option.some.inj hq
      exact hjoin m k (hleft m hma) (hright k hmb)

theorem join (ha : a.Normal) (hb : b.Normal) : (a.join b).Normal :=
  fun _ hq => ha.join_induction hb ha hb (fun _ _ hm hk => hm.join hk) hq

/-- A difference of literals that is bounded at the points of both is bounded at those of
the join. -/
theorem sub_le_of_join (ha : a.Normal) (hb : b.Normal)
    (h : ∀ v, a.Point v ∨ b.Point v → j.value v - i.value v ≤ e) (hv : (a.join b).Point v) :
    j.value v - i.value v ≤ e := by
  obtain ⟨q, hq, hqv⟩ := point_iff_closure?.mp hv
  apply hqv.le_of_bounds
  -- a bound that holds at all points of a tight matrix stands in it
  refine ha.join_induction (P := (Matrix.Bounds · i j e)) hb ?_ ?_
    (fun _ _ hm hk => Matrix.bounds_join.mpr ⟨hm, hk⟩) hq
  · intro m hm
    exact (ha m hm).bounds_iff.mpr fun w hw => h w (.inl ((point_of_closure? hm).mpr hw))
  · intro k hk
    exact (hb k hk).bounds_iff.mpr fun w hw => h w (.inr ((point_of_closure? hk).mpr hw))

theorem exists_point_of_join (ha : a.Normal) (hb : b.Normal) (hv : (a.join b).Point v) :
    ∃ w, a.Point w ∨ b.Point w := by
  obtain ⟨q, hq, -⟩ := point_iff_closure?.mp hv
  refine ha.join_induction (P := fun _ => ∃ w, a.Point w ∨ b.Point w) hb ?_ ?_ (fun _ _ h _ => h) hq
  · intro m hm
    obtain ⟨w, hw⟩ := (ha m hm).exists_point
    exact ⟨w, .inl ((point_of_closure? hm).mpr hw)⟩
  · intro k hk
    obtain ⟨w, hw⟩ := (hb k hk).exists_point
    exact ⟨w, .inr ((point_of_closure? hk).mpr hw)⟩

end Normal

/-- The octagon `s` is the least one around `a` and `b`, and bounds every literal and every sum of
two literals as tightly as both of them do. -/
structure LeastAround (a b s : Octagon n) : Prop where
  around : ∀ v, a.Point v ∨ b.Point v → s.Point v
  least : ∀ t : Octagon n, (∀ v, a.Point v ∨ b.Point v → t.Point v) → ∀ v, s.Point v → t.Point v
  upper : ∀ (i : Literal n) (e : Int), (∀ v, a.Point v ∨ b.Point v → i.value v ≤ e) →
    ∀ v, s.Point v → i.value v ≤ e
  upperSum : ∀ (i j : Literal n) (e : Int),
    (∀ v, a.Point v ∨ b.Point v → i.value v + j.value v ≤ e) →
    ∀ v, s.Point v → i.value v + j.value v ≤ e

theorem Normal.leastAround_join (ha : a.Normal) (hb : b.Normal) : LeastAround a b (a.join b) where
  around _ hv := Point.join hv
  least t h v hv := by
    obtain ⟨w, hw⟩ := ha.exists_point_of_join hb hv
    obtain ⟨q, hq, -⟩ := h w hw
    refine ⟨q, hq, fun i j => ?_⟩
    cases hc : q.get i j with
    | absent => exact Bound.allows_absent
    | finite c =>
      apply ha.sub_le_of_join hb _ hv
      intro u hu
      obtain ⟨q', hq', hqu⟩ := h u hu
      obtain rfl : q' = q := Option.some.inj (hq'.symm.trans hq)
      exact hqu.le_of_bounds (Matrix.bounds_of_get hc)
  upper i e h v hv := by
    have hle := ha.sub_le_of_join hb (i := i.bar) (j := i) (e := 2 * e) (fun u hu => by
      have hu := h u hu
      rw [Literal.value_bar]
      omega) hv
    rw [Literal.value_bar] at hle
    omega
  upperSum i j e h v hv := by
    have hle := ha.sub_le_of_join hb (i := j.bar) (j := i) (e := e) (fun u hu => by
      have hu := h u hu
      rw [Literal.value_bar]
      omega) hv
    rw [Literal.value_bar] at hle
    omega

theorem Normal.same_join_comm (ha : a.Normal) (hb : b.Normal) :
    (a.join b).same (b.join a) = true := by
  apply decide_eq_true
  rw [ha.closure?_join hb, hb.closure?_join ha]
  exact Std.Commutative.comm _ _

theorem Normal.same_join_assoc (ha : a.Normal) (hb : b.Normal) (hc : c.Normal) :
    ((a.join b).join c).same (a.join (b.join c)) = true := by
  apply decide_eq_true
  rw [(ha.join hb).closure?_join hc, ha.closure?_join hb, ha.closure?_join (hb.join hc),
    hb.closure?_join hc]
  exact Std.Associative.assoc _ _ _

theorem Normal.same_join_self (ha : a.Normal) : (a.join a).same a = true := by
  apply decide_eq_true
  rw [ha.closure?_join ha]
  exact Std.IdempotentOp.idempotent _

theorem Normal.same_empty_join (ha : a.Normal) : (empty.join a).same a = true := by
  apply decide_eq_true
  rw [normal_empty.closure?_join ha]
  exact Option.merge_none_left

theorem Normal.same_join_empty (ha : a.Normal) : (a.join empty).same a = true := by
  apply decide_eq_true
  rw [ha.closure?_join normal_empty]
  exact Option.merge_none_right

end Octagon

namespace AbstractState

open Octagon

theorem join_mk (env : Environment) (a b : Octagon env.size) :
    join ⟨env, a⟩ ⟨env, b⟩ = .ok ⟨env, a.join b⟩ := by
  rw [join, aligned, dif_pos rfl]
  rfl

theorem aligned_of_env_ne {s t : AbstractState} (h : s.env ≠ t.env) :
    s.aligned t = .error (.domain (.incompatible s.env.vars t.env.vars)) := by
  rw [aligned, dif_neg h]

/-- States over one environment have a join, which is the least state around both; up to `same` it
is commutative, associative and idempotent, and the empty state is its identity. States over
different environments have neither a join nor a widening. -/
theorem join_leastAround (env : Environment) (a b c : Octagon env.size) (ha : Built Matrix.Small a)
    (hb : Built Matrix.Small b) (hc : Built Matrix.Small c) (hca : a.Closable) (hcb : b.Closable)
    (hcc : c.Closable) :
    join ⟨env, a⟩ ⟨env, b⟩ = .ok ⟨env, a.join b⟩ ∧ LeastAround a b (a.join b) ∧
    (a.join b).same (b.join a) = true ∧ ((a.join b).join c).same (a.join (b.join c)) = true ∧
    (a.join a).same a = true ∧ (Octagon.empty.join a).same a = true ∧
    (a.join .empty).same a = true ∧
    ∀ s t : AbstractState, s.env ≠ t.env →
      s.join t = .error (.domain (.incompatible s.env.vars t.env.vars)) ∧
      s.widen t = .error (.domain (.incompatible s.env.vars t.env.vars)) := by
  have hna := ha.normal hca
  have hnb := hb.normal hcb
  have hnc := hc.normal hcc
  refine ⟨join_mk env a b, hna.leastAround_join hnb, hna.same_join_comm hnb,
    hna.same_join_assoc hnb hnc, hna.same_join_self, hna.same_empty_join, hna.same_join_empty,
      fun s t h => ⟨?_, ?_⟩⟩
  · rw [join, aligned_of_env_ne h]
    rfl
  · rw [widen, aligned_of_env_ne h]
    rfl

def plane : Environment := .ofNodup ["u", "v"] (by decide)

/-- Neither the segment nor the corner contains the other, and the segment is not marked
as closed. -/
theorem join_leastAround_segment :
    join ⟨plane, segment⟩ ⟨plane, corner⟩ = .ok ⟨plane, segment.join corner⟩ ∧
    LeastAround segment corner (segment.join corner) ∧
    ((segment.join corner).join wedge).same (segment.join (corner.join wedge)) = true ∧
    join ⟨plane, segment⟩ (top (.ofNodup [] .nil)) =
      .error (.domain (.incompatible ["u", "v"] [])) := by
  obtain ⟨hjoin, hleast, -, hassoc, -, -, -, hfail⟩ :=
    join_leastAround plane segment corner wedge built_segment
    built_corner built_wedge closable_segment (closable_meet _ _) (closable_meet _ _)
  exact ⟨hjoin, hleast, hassoc, (hfail _ _ (by decide)).1⟩

end AbstractState

end Lifespan
