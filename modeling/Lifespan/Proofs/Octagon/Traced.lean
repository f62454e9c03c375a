import Lifespan.Octagon.Traced
import Lifespan.Proofs.Octagon.InPlace
import Lifespan.Proofs.Traced

namespace Lifespan

variable {n : Nat}

theorem Operation.size_ne_one {a : Int} : (size a).result ≠ 1 ↔ a.natAbs ≠ 1 := by
  change (a.natAbs : Int) ≠ 1 ↔ _
  omega

namespace Bound

@[simp] theorem value_addTraced (a b : Bound) : (a.addTraced b).value = a + b := by
  cases a <;> cases b <;> rfl

@[simp] theorem value_evenTraced (a : Bound) : a.evenTraced.value = a.even := by
  cases a <;> rfl

@[simp] theorem value_halfSumTraced (a b : Bound) : (a.halfSumTraced b).value = a.halfSum b := by
  cases a <;> cases b <;> rfl

theorem value_shiftTraced (upper lower : Traced Int) (b : Bound) :
    (b.shiftTraced upper lower).value = b.shift (upper.value - lower.value) := by
  cases b with
  | absent => rfl
  | finite c =>
    simp only [shiftTraced, Traced.value_bind, Traced.value_perform, Traced.value_pure,
      Operation.result, shift, Int.add_sub_assoc]

end Bound

@[simp] theorem Interval.value_negTraced (a : Interval) : a.negTraced.value = a.neg := by
  simp [negTraced, neg]

namespace Linear

@[simp] theorem value_offsetTraced (c : Int) (f : Linear n) :
    (f.offsetTraced c).value = f.offset c := rfl

@[simp] theorem value_negateTraced (f : Linear n) : f.negateTraced.value = f.negate := by
  simp only [negateTraced, Traced.value_bind, Traced.value_ofFn, Traced.value_pure,
    Traced.value_perform, Operation.result, negate]
  congr 1
  ext x hx
  simp only [Vector.getElem_ofFn, Vector.getElem_map, Vector.get_eq_getElem, Traced.value_ite,
    Traced.value_pure, Traced.value_perform, Operation.result]
  split
  case isTrue hzero => rw [hzero, Int.neg_zero]
  case isFalse => rfl

end Linear

namespace Matrix

variable {k : Literal n}

theorem value_lowerRowTraced (m : Matrix n) (i : Literal n) (source : Literal n → Literal n)
    (f : Bound → Traced Bound) :
    (m.lowerRowTraced i source f).value = m.lowerRow i source fun b => (f b).value := by
  rw [lowerRowTraced, Traced.value_foldlM]
  simp only [Traced.value_bind, Traced.value_pure]
  rfl

theorem value_relaxRowTraced (m : Matrix n) (i : Literal n) :
    (m.relaxRowTraced k i).value = m.relaxRow k i := by
  rw [relaxRowTraced.eq_def, relaxRow.eq_def]
  cases m.get i k with
  | absent => rfl
  | finite c =>
    dsimp only
    rw [value_lowerRowTraced]
    simp only [Bound.value_addTraced]

theorem value_pivotTraced (m : Matrix n) (k : Literal n) :
    (m.pivotTraced k).value = m.pivotInPlace k := by
  rw [pivotTraced, Traced.value_foldlM]
  simp only [value_relaxRowTraced]
  rfl

theorem value_shortestPathsTraced (m : Matrix n) :
    m.shortestPathsTraced.value = m.shortestPathsInPlace := by
  rw [shortestPathsTraced, Traced.value_foldlM]
  simp only [value_pivotTraced]
  rfl

theorem value_tightenTraced (m : Matrix n) : m.tightenTraced.value = m.tightenInPlace := by
  rw [tightenTraced, Traced.value_foldlM]
  simp only [Traced.value_bind, Traced.value_pure, Bound.value_evenTraced]
  rfl

theorem value_strengthenTraced (m : Matrix n) : m.strengthenTraced.value = m.strengthenInPlace := by
  rw [strengthenTraced, Traced.value_foldlM]
  simp only [value_lowerRowTraced, Bound.value_halfSumTraced]
  rfl

theorem value_finishTraced? (m : Matrix n) (l : List (Literal n)) : (m.finishTraced? l).value =
    l.foldlM (fun m i => if m.refutedAt i then none else some (m.set i i (.finite 0))) m := by
  induction l generalizing m with
  | nil => rfl
  | cons i l ih =>
    rw [finishTraced?, Traced.value_bind, Bound.value_addTraced, List.foldlM_cons]
    cases hbad : m.refutedAt i with
    | true =>
      rw [refutedAt] at hbad
      rw [hbad]
      rfl
    | false =>
      rw [refutedAt] at hbad
      rw [hbad]
      exact ih _

/-- Tracing the arithmetic does not change what comes out. -/
@[simp] theorem value_closeTraced? (m : Matrix n) : m.closeTraced?.value = m.close? := by
  rw [← closeInPlace?_eq, closeInPlace?, pathsInPlace?, closeTraced?, Traced.value_bind,
    value_shortestPathsTraced]
  split
  · rfl
  · rw [Traced.value_bind, value_tightenTraced, Traced.value_bind, value_strengthenTraced,
      value_finishTraced?]
    rfl

@[simp] theorem value_addScaledTraced (m : Matrix n) (x : Fin n) (k c : Int) :
    (m.addScaledTraced x k c).value = m.addScaled x k c := by
  unfold addScaledTraced addScaled
  split
  · rfl
  · split <;> rfl

@[simp] theorem value_addIntervalTraced (m : Matrix n) (x : Fin n) (a : Interval) :
    (m.addIntervalTraced x a).value = m.addInterval x a := by
  obtain ⟨lo, hi⟩ := a
  cases lo <;> cases hi <;> rfl

theorem value_growthTraced (x : Fin n) (c : Int) (i : Literal n) :
    (growthTraced x c i).value = growth x c i := by
  unfold growthTraced growth
  split
  · split <;> rfl
  · rfl

@[simp] theorem value_shiftTraced (m : Matrix n) (x : Fin n) (c : Int) :
    (m.shiftTraced x c).value = m.shift x c := by
  simp only [shiftTraced, Traced.value_bind, Traced.value_ofFn, Traced.value_pure,
    Bound.value_shiftTraced, value_growthTraced]
  rfl

@[simp] theorem value_unitPairTraced? (l : List (Fin n × Int)) :
    (unitPairTraced? l).value = unitPair? l := by
  match l with
  | [] | [_] | _ :: _ :: _ :: _ => rfl
  | [(x, k), (y, l)] =>
    simp only [unitPairTraced?, unitPair?, Traced.value_bind, Traced.value_perform,
      Traced.value_ite, Traced.value_pure, Operation.size_ne_one]
    by_cases hk : k.natAbs = 1 <;> by_cases hl : l.natAbs = 1 <;> simp [hk, hl]

@[simp] theorem value_rangeTraced (m : Matrix n) (f : Linear n) :
    (m.rangeTraced f).value = m.range f := by
  unfold rangeTraced range
  rw [Traced.value_bind, value_unitPairTraced?]
  cases unitPair? f.summands with
  | none => rfl
  | some pair => simp

@[simp] theorem value_termRangeTraced (m : Matrix n) (t : Term (Fin n)) :
    (m.termRangeTraced t).value = m.termRange t := by
  induction t with
  | const c => rfl
  | var x => rfl
  | add l r ihl ihr | sub l r ihl ihr | mul l r ihl ihr =>
    simp [termRangeTraced, termRange, ihl, ihr]

theorem negation_of_mem_negated {v : Option Int} {o : Operation}
    (h : o ∈ (Traced.negated v).operations) : ∃ a, o = .negation a := by
  cases v with
  | none => cases h
  | some a => exact ⟨a, List.mem_singleton.mp h⟩

theorem negation_of_mem_termRangeTraced {m : Matrix n} {t : Term (Fin n)} {o : Operation}
    (h : o ∈ (m.termRangeTraced t).operations) : ∃ a, o = .negation a := by
  induction t with
  | const c => cases h
  | var x => cases h
  | add l r ihl ihr | mul l r ihl ihr =>
    simp only [termRangeTraced, Traced.operations_bind, Traced.operations_pure, List.append_nil,
      List.mem_append] at h
    exact h.elim ihl ihr
  | sub l r ihl ihr =>
    simp only [termRangeTraced, Interval.negTraced, Traced.operations_bind,
      Traced.operations_pure, List.append_nil, List.mem_append] at h
    rcases h with h | h | h | h
    · exact ihl h
    · exact ihr h
    · exact negation_of_mem_negated h
    · exact negation_of_mem_negated h

@[simp] theorem value_rangeOfTraced (m : Matrix n) (t : Term (Fin n)) :
    (m.rangeOfTraced t).value = m.rangeOf t := by
  unfold rangeOfTraced rangeOf
  cases t.linear? <;> simp

@[simp] theorem value_addSpreadTraced (m : Matrix n) (summands : List (Fin n × Int)) (c : Int) :
    (m.addSpreadTraced summands c).value = m.addSpread summands c := by
  rw [addSpreadTraced, Traced.value_foldlM, addSpread]
  congr 1
  funext m p
  dsimp only
  cases (m.sumOf (summands.filter (·.1 ≠ p.1))).lo with
  | none => rfl
  | some l => simp [Operation.result]

@[simp] theorem value_addNonnegTraced (m : Matrix n) (f : Linear n) :
    (m.addNonnegTraced f).value = m.addNonneg f := by
  unfold addNonnegTraced addNonneg
  rw [Traced.value_bind, value_rangeTraced, Traced.value_ite]
  congr 1
  simp only [Traced.value_bind, Traced.value_mapM, Traced.value_perform, Traced.value_pure,
    Operation.result, value_unitPairTraced?]
  generalize f.summands.map (fun p => (p.1, -p.2)) = summands
  cases unitPair? summands with
  | some pair => rfl
  | none =>
    cases summands with
    | nil => rfl
    | cons first rest => cases rest <;> simp

@[simp] theorem value_addLinearTraced (m : Matrix n) (f : Linear n) (r : Relation) :
    (m.addLinearTraced f r).value = m.addLinear f r := by
  cases r with
  | ge => exact value_addNonnegTraced m f
  | gt => simp [addLinearTraced, addLinear]
  | eq =>
    simp only [addLinearTraced, addLinear, Traced.value_bind, value_addNonnegTraced]
    cases m.addNonneg f with
    | none => rfl
    | some m => simp
  | ne => simp [addLinearTraced, addLinear, Traced.value_ite]

@[simp] theorem value_relateTraced (m : Matrix n) (x y : Fin n) (k : Int) (rest : Interval) :
    (m.relateTraced x y k rest).value = m.relate x y k rest := by
  obtain ⟨lo, hi⟩ := rest
  cases lo <;> cases hi <;> rfl

theorem value_relationsTraced (m : Matrix n) (x : Fin n) (f : Linear n) (l : List (Fin n × Int)) :
    (m.relationsTraced x f l).value = (l.filter fun (y, k) => y ≠ x ∧ k.natAbs = 1).map
      fun (y, k) => (y, k, m.range (f.without y)) := by
  induction l with
  | nil => rfl
  | cons p l ih =>
    obtain ⟨y, k⟩ := p
    simp only [relationsTraced, Traced.value_ite, Traced.value_bind, Traced.value_perform,
      Traced.value_pure, value_rangeTraced, ih, Operation.size_ne_one]
    by_cases hy : y = x <;> by_cases hk : k.natAbs = 1 <;> simp [hy, hk]

@[simp] theorem value_assignLinearTraced (m : Matrix n) (x : Fin n) (f : Linear n) :
    (m.assignLinearTraced x f).value = m.assignLinear x f := by
  simp only [assignLinearTraced, assignLinear, Traced.value_bind, value_rangeTraced,
    value_relationsTraced, value_addIntervalTraced, Traced.value_foldlM, value_relateTraced]

end Matrix

namespace Octagon

@[simp] theorem value_closureTraced? (s : Octagon n) : s.closureTraced?.value = s.closure? := by
  cases s with
  | loose m => exact m.value_closeTraced?
  | empty | tight m => rfl

@[simp] theorem value_ofMatrixTraced (m : Matrix n) :
    (ofMatrixTraced m).value = ofMatrix m := by
  unfold ofMatrixTraced ofMatrix
  rw [Traced.value_bind, Matrix.value_closeTraced?]
  cases m.close? <;> rfl

@[simp] theorem value_joinTraced (a b : Octagon n) : (a.joinTraced b).value = a.join b := by
  unfold joinTraced join
  rw [Traced.value_bind, Traced.value_bind, value_closureTraced?, value_closureTraced?]
  cases a.closure? <;> cases b.closure? <;> rfl

@[simp] theorem value_meetTraced (s : Octagon n) (c : Constraint (Fin n)) :
    (s.meetTraced c).value = s.meet c := by
  unfold meetTraced meet
  rw [Traced.value_bind, value_closureTraced?]
  cases s.closure? with
  | none => rfl
  | some m =>
    dsimp only
    cases c.term.linear? with
    | none => simp [Traced.value_ite]
    | some f =>
      dsimp only
      rw [Traced.value_bind, Matrix.value_addLinearTraced]
      cases m.addLinear f c.relation with
      | none => rfl
      | some m => exact value_ofMatrixTraced m

@[simp] theorem value_assignTraced (s : Octagon n) (x : Fin n) (t : Term (Fin n)) :
    (s.assignTraced x t).value = s.assign x t := by
  unfold assignTraced assign
  rw [Traced.value_bind, value_closureTraced?]
  cases s.closure? with
  | none => rfl
  | some m =>
    dsimp only
    cases t.linear? with
    | none => simp
    | some f => simp [Traced.value_ite]

@[simp] theorem value_satisfiesTraced (s : Octagon n) (c : Constraint (Fin n)) :
    (s.satisfiesTraced c).value = s.satisfies c := by
  unfold satisfiesTraced satisfies
  rw [Traced.value_bind, value_closureTraced?]
  cases s.closure? with
  | none => rfl
  | some m => simp

end Octagon

end Lifespan
