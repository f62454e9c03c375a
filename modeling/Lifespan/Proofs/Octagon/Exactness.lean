import Lifespan.Proofs.Octagon.Tight
import Mathlib.Data.Finset.Order
import Mathlib.Data.Fintype.Basic

namespace Lifespan

namespace Literal

variable {n : Nat} {v : Fin n → Int}

/-- The valuation with `t` as the value of the literal. -/
def assign (i : Literal n) (v : Fin n → Int) (t : Int) : Fin n → Int :=
  Function.update v i.var (if i.negative then -t else t)

@[simp] theorem value_assign_self (i : Literal n) (t : Int) : i.value (i.assign v t) = t := by
  unfold value assign
  rw [Function.update_self]
  split <;> omega

theorem value_assign_of_ne {i l : Literal n} (h : l.var ≠ i.var) (t : Int) :
    l.value (i.assign v t) = l.value v := Matrix.value_update_of_ne h _

theorem eq_or_eq_bar {i l : Literal n} (h : l.var = i.var) : l = i ∨ l = i.bar := by
  obtain ⟨x, s⟩ := i
  obtain ⟨y, t⟩ := l
  obtain rfl : y = x := h
  cases s <;> cases t <;> simp [bar]

end Literal

namespace Matrix

variable {n : Nat} {m : Matrix n} {i j l : Literal n} {v : Fin n → Int} {X : Finset (Fin n)}

/-- The valuation satisfies the constraints between the variables of `X`. -/
def PointOn (m : Matrix n) (X : Finset (Fin n)) (v : Fin n → Int) : Prop :=
  ∀ i j c, i.var ∈ X → j.var ∈ X → m.Bounds i j c → j.value v - i.value v ≤ c

theorem pointOn_empty (m : Matrix n) (v : Fin n → Int) : m.PointOn ∅ v :=
  fun _ _ _ h => absurd h (Finset.notMem_empty _)

theorem PointOn.point (h : m.PointOn X v) (hX : ∀ x, x ∈ X) : m.Point v := by
  intro i j
  cases hc : m.get i j with
  | absent => exact Bound.allows_absent
  | finite c => exact h i j c (hX _) (hX _) (bounds_of_get hc)

/-- What the values on `X` allow the literal to be at most. -/
def uppers (m : Matrix n) (X : Finset (Fin n)) (v : Fin n → Int) (i : Literal n) : List Int :=
  (Literal.all n).filterMap (fun l =>
    if l.var ∈ X then (m.get l i).toInt?.map (l.value v + ·) else none) ++
  ((m.get i.bar i).toInt?.map (· / 2)).toList

theorem mem_uppers {u : Int} : u ∈ m.uppers X v i ↔
    (∃ l c, l.var ∈ X ∧ m.get l i = .finite c ∧ l.value v + c = u) ∨
      ∃ c, m.get i.bar i = .finite c ∧ c / 2 = u := by
  simp [uppers, Bound.toInt?_eq_some, Literal.mem_all]

/-- The greatest number up to `s` that is at most every member of the list. -/
theorem exists_greatest (s : Int) (us : List Int) :
    ∃ t ≤ s, (∀ u ∈ us, t ≤ u) ∧ (t = s ∨ t ∈ us) := by
  induction us with
  | nil => exact ⟨s, le_rfl, by simp, .inl rfl⟩
  | cons u us ih =>
    obtain ⟨t, hts, hall, hor⟩ := ih
    rcases Int.le_total t u with htu | hut
    · exact ⟨t, hts, List.forall_mem_cons.mpr ⟨htu, hall⟩, hor.imp_right (List.mem_cons_of_mem u)⟩
    · refine ⟨u, hut.trans hts, List.forall_mem_cons.mpr
        ⟨le_rfl, fun w hw => hut.trans (hall w hw)⟩, ?_⟩
      exact .inr List.mem_cons_self

/-- Any value for the literal that respects the lower bounds can be lowered to one that respects the
upper bounds too. -/
theorem PointOn.exists_value (hm : m.Tight) (h : m.PointOn X v) {s : Int}
    (hlow : ∀ l c, l.var ∈ X → m.Bounds i l c → l.value v - c ≤ s)
    (hself : ∀ c, m.Bounds i i.bar c → -c ≤ 2 * s) :
    ∃ t ≤ s, (∀ l c, l.var ∈ X → m.Bounds l i c → t - l.value v ≤ c) ∧
      (∀ l c, l.var ∈ X → m.Bounds i l c → l.value v - t ≤ c) ∧
      (∀ c, m.Bounds i.bar i c → 2 * t ≤ c) ∧ ∀ c, m.Bounds i i.bar c → -(2 * t) ≤ c := by
  obtain ⟨t, hts, hle, hor⟩ := exists_greatest s (m.uppers X v i)
  refine ⟨t, hts, ?_, ?_, ?_, ?_⟩
  · intro l c hl hc
    obtain ⟨d, hd, hdc⟩ := hc.exists_get
    have htl := hle _ (mem_uppers.mpr (.inl ⟨l, d, hl, hd, rfl⟩))
    omega
  · intro l c hl hc
    rcases hor with rfl | hmem
    · have hls := hlow l c hl hc
      omega
    · rcases mem_uppers.mp hmem with ⟨p, d, hp, hd, rfl⟩ | ⟨d, hd, rfl⟩
      · have hpl := h p l _ hp hl (hm.through i p l _ _ (bounds_of_get hd) hc)
        omega
      · -- from the opposite of `l` through both literals to `l`
        have hback := hm.toRegular.bounds_bar hc
        have hround :=
          hm.through i l.bar l _ _ (hm.through i.bar l.bar i _ _ hback (bounds_of_get hd)) hc
        have htwice := h l.bar l _ hl hl hround
        rw [Literal.value_bar] at htwice
        omega
  · intro c hc
    obtain ⟨d, hd, hdc⟩ := hc.exists_get
    have hhalf := hle _ (mem_uppers.mpr (.inr ⟨d, hd, rfl⟩))
    omega
  · intro c hc
    rcases hor with rfl | hmem
    · have hcs := hself c hc
      omega
    · rcases mem_uppers.mp hmem with ⟨p, d, hp, hd, rfl⟩ | ⟨d, hd, rfl⟩
      · have hto := bounds_of_get hd
        have hround := hm.through i.bar p p.bar _ _ (hm.through i p i.bar _ _ hto hc)
          (hm.toRegular.bounds_bar hto)
        have htwice := h p p.bar _ hp hp hround
        rw [Literal.value_bar] at htwice
        omega
      · -- an even bound loses nothing by halving
        have heven := hm.even i.bar d (by rwa [Literal.bar_bar])
        have hround := hm.nonneg_of_bounds_self (hm.through i.bar i i _ _ hc (bounds_of_get hd))
        omega

/-- A point on `X` extends to one more variable, at a value up to any that respects the
lower bounds. -/
theorem PointOn.extend (hm : m.Tight) (h : m.PointOn X v) (hi : i.var ∉ X) {s : Int}
    (hlow : ∀ l c, l.var ∈ X → m.Bounds i l c → l.value v - c ≤ s)
    (hself : ∀ c, m.Bounds i i.bar c → -c ≤ 2 * s) :
    ∃ w, m.PointOn (insert i.var X) w ∧ (∀ l : Literal n, l.var ∈ X → l.value w = l.value v) ∧
      i.value w ≤ s := by
  obtain ⟨t, hts, hto, hfrom, hup, hdown⟩ := h.exists_value hm hlow hself
  have hkeep : ∀ l : Literal n, l.var ∈ X → l.value (i.assign v t) = l.value v := by
    intro l hl
    exact Literal.value_assign_of_ne (fun heq => hi (heq ▸ hl)) t
  refine ⟨i.assign v t, ?_, hkeep, by rw [Literal.value_assign_self]; exact hts⟩
  intro p q c hp hq hc
  have hcases : ∀ l : Literal n, l.var ∈ insert i.var X → l = i ∨ l = i.bar ∨ l.var ∈ X := by
    intro l hl
    rcases Finset.mem_insert.mp hl with heq | hl
    · exact (Literal.eq_or_eq_bar heq).imp_right .inl
    · exact .inr (.inr hl)
  have hmirror := hm.toRegular.bounds_bar hc
  rcases hcases p hp with rfl | rfl | hpX <;> rcases hcases q hq with rfl | rfl | hqX
  · have hnonneg := hm.nonneg_of_bounds_self hc
    omega
  · have hle := hdown c hc
    rw [Literal.value_bar, Literal.value_assign_self]
    omega
  · have hle := hfrom q c hqX hc
    rw [hkeep q hqX, Literal.value_assign_self]
    omega
  · have hle := hup c hc
    rw [Literal.value_bar, Literal.value_assign_self]
    omega
  · have hnonneg := hm.nonneg_of_bounds_self hc
    omega
  · -- a bound between the opposite literals is one between `i` and the opposite of `q`
    rw [Literal.bar_bar] at hmirror
    have hle := hto q.bar c hqX hmirror
    rw [Literal.value_bar] at hle
    rw [hkeep q hqX, Literal.value_bar, Literal.value_assign_self]
    omega
  · have hle := hto p c hpX hc
    rw [hkeep p hpX, Literal.value_assign_self]
    omega
  · rw [Literal.bar_bar] at hmirror
    have hle := hfrom p.bar c hpX hmirror
    rw [Literal.value_bar] at hle
    rw [hkeep p hpX, Literal.value_bar, Literal.value_assign_self]
    omega
  · rw [hkeep p hpX, hkeep q hqX]
    exact h p q c hpX hqX hc

/-- Some value of a literal respects all its lower bounds. -/
theorem exists_above (m : Matrix n) (v : Fin n → Int) (i : Literal n) :
    ∃ s, (∀ l c, m.Bounds i l c → l.value v - c ≤ s) ∧ ∀ c, m.Bounds i i.bar c → -c ≤ 2 * s := by
  let lowers := 0 :: (Literal.all n).filterMap (fun l => (m.get i l).toInt?.map (l.value v - ·)) ++
    ((m.get i i.bar).toInt?.map (-·)).toList
  have hlow : ∀ l d, m.get i l = .finite d → l.value v - d ∈ lowers := by
    intro l d hd
    simp only [lowers, List.mem_append, List.mem_cons, List.mem_filterMap, Option.map_eq_some_iff,
      Bound.toInt?_eq_some]
    exact .inl (.inr ⟨l, Literal.mem_all l, d, hd, rfl⟩)
  have hself : ∀ d, m.get i i.bar = .finite d → -d ∈ lowers := by
    intro d hd
    simp [lowers, hd, Bound.toInt?]
  obtain ⟨s, hs⟩ := lowers.toFinset.exists_le
  have hs0 : 0 ≤ s := hs 0 (by simp [lowers])
  refine ⟨s, fun l c hc => ?_, fun c hc => ?_⟩
  · obtain ⟨d, hd, hdc⟩ := hc.exists_get
    have hle := hs _ (List.mem_toFinset.mpr (hlow l d hd))
    omega
  · obtain ⟨d, hd, hdc⟩ := hc.exists_get
    have hle := hs _ (List.mem_toFinset.mpr (hself d hd))
    omega

namespace Tight

/-- A point on some variables extends to all. -/
theorem exists_point_of_pointOn (hm : m.Tight) (h : m.PointOn X v) :
    ∃ w, m.Point w ∧ ∀ l : Literal n, l.var ∈ X → l.value w = l.value v := by
  have hall : ∀ Y : Finset (Fin n), ∃ w, m.PointOn (Y ∪ X) w ∧
      ∀ l : Literal n, l.var ∈ X → l.value w = l.value v := by
    intro Y
    induction Y using Finset.induction_on with
    | empty => exact ⟨v, by simpa using h, fun _ _ => rfl⟩
    | insert x Y _ ih =>
      obtain ⟨w, hw, hkeep⟩ := ih
      rw [Finset.insert_union]
      by_cases hx : x ∈ Y ∪ X
      · rw [Finset.insert_eq_of_mem hx]
        exact ⟨w, hw, hkeep⟩
      · obtain ⟨s, hlow, hself⟩ := m.exists_above w (.pos x)
        obtain ⟨w', hw', hkeep', -⟩ :=
          hw.extend (i := .pos x) hm hx (fun l c _ hc => hlow l c hc) hself
        refine ⟨w', hw', fun l hl => ?_⟩
        rw [hkeep' l (Finset.mem_union_right Y hl), hkeep l hl]
  obtain ⟨w, hw, hkeep⟩ := hall Finset.univ
  exact ⟨w, hw.point fun x => by simp, hkeep⟩

theorem exists_point (hm : m.Tight) : ∃ v, m.Point v := by
  obtain ⟨w, hw, -⟩ := hm.exists_point_of_pointOn (m.pointOn_empty fun _ => 0)
  exact ⟨w, hw⟩

/-- A literal gets as high as its bound, and as high as one likes if it has none. -/
theorem exists_pointOn_ge (hm : m.Tight) (j : Literal n) (d : Int)
    (hd : ∀ c, m.Bounds j.bar j c → 2 * d ≤ c) : ∃ v, m.PointOn {j.var} v ∧ d ≤ j.value v := by
  have hself : ∀ c, m.Bounds j.bar j.bar.bar c → -c ≤ 2 * -d := by
    intro c hc
    rw [Literal.bar_bar] at hc
    have hle := hd c hc
    omega
  obtain ⟨v, hv, -, hle⟩ :=
    (m.pointOn_empty fun _ => 0).extend (i := j.bar) hm (Finset.notMem_empty _)
    (fun _ _ h => absurd h (Finset.notMem_empty _)) hself
  rw [Literal.value_bar] at hle
  exact ⟨v, hv, by omega⟩

/-- A height of `j` from which on the other bounds on `i` leave room for a difference of `d`. -/
theorem exists_height (hm : m.Tight) (i j : Literal n) (d : Int)
    (hd : ∀ c, m.Bounds i j c → d ≤ c) :
    ∃ q, (∀ c, m.Bounds j.bar j c → 2 * q ≤ c) ∧ (∀ c, m.Bounds i j.bar c → d - c ≤ 2 * q) ∧
      ∀ c, m.Bounds i i.bar c → 2 * d - c ≤ 2 * q := by
  cases hj : m.get j.bar j with
  | finite e =>
    have hje := bounds_of_get hj
    have heven := hm.even j.bar e (by rwa [Literal.bar_bar])
    refine ⟨e / 2, fun c hc => ?_, fun c hc => ?_, fun c hc => ?_⟩
    · have hle := hc.le_of_get hj
      omega
    · have hle := hd _ (hm.through j.bar i j _ _ hc hje)
      omega
    · have hle := hd _ (hm.strong i j _ _ hc hje)
      omega
  | absent =>
    have hroom : ∀ (b : Bound) (x : Int), ∃ q, 0 ≤ q ∧ ∀ c, b ≤ .finite c → x - c ≤ q := by
      intro b x
      cases b with
      | absent => exact ⟨0, le_rfl, by simp⟩
      | finite e =>
        refine ⟨max 0 (x - e), le_max_left _ _, fun c hc => ?_⟩
        have hmax := le_max_right 0 (x - e)
        rw [Bound.finite_le_finite] at hc
        omega
    obtain ⟨p, hp, hpc⟩ := hroom (m.get i j.bar) d
    obtain ⟨q, hq, hqc⟩ := hroom (m.get i i.bar) (2 * d)
    refine ⟨p + q, fun c hc => ?_, fun c hc => ?_, fun c hc => ?_⟩
    · obtain ⟨e, he, -⟩ := hc.exists_get
      rw [hj] at he
      cases he
    · have hle := hpc c hc
      omega
    · have hle := hqc c hc
      omega

/-- A difference gets as high as its bound, and as high as one likes if it has none. -/
theorem exists_point_ge (hm : m.Tight) (i j : Literal n) (d : Int)
    (hd : ∀ c, m.Bounds i j c → d ≤ c) :
    ∃ v, m.Point v ∧ d ≤ j.value v - i.value v := by
  by_cases hvar : j.var = i.var
  · rcases Literal.eq_or_eq_bar hvar with rfl | rfl
    · obtain ⟨v, hv⟩ := hm.exists_point
      have hzero := hd 0 (bounds_of_get (hm.diagonal j))
      exact ⟨v, hv, by omega⟩
    · -- the difference is twice the opposite literal, and its bound is even
      have hhalf : ∀ c, m.Bounds i.bar.bar i.bar c → 2 * ((d + 1) / 2) ≤ c := by
        intro c hc
        rw [Literal.bar_bar] at hc
        obtain ⟨e, he, hec⟩ := hc.exists_get
        have heven := hm.even i e he
        have hle := hd e (bounds_of_get he)
        omega
      obtain ⟨v, hv, hle⟩ := hm.exists_pointOn_ge i.bar _ hhalf
      obtain ⟨w, hw, hkeep⟩ := hm.exists_point_of_pointOn hv
      rw [← hkeep i.bar (Finset.mem_singleton_self _), Literal.value_bar] at hle
      refine ⟨w, hw, ?_⟩
      rw [Literal.value_bar]
      omega
  · obtain ⟨q, hq, hopposite, hunary⟩ := hm.exists_height i j d hd
    obtain ⟨v, hv, hqv⟩ := hm.exists_pointOn_ge j q hq
    -- with `j` high enough, `i` may be as low as `j - d`
    have hlow : ∀ l c, l.var ∈ ({j.var} : Finset (Fin n)) → m.Bounds i l c →
        l.value v - c ≤ j.value v - d := by
      intro l c hl hc
      rcases Literal.eq_or_eq_bar (Finset.mem_singleton.mp hl) with rfl | rfl
      · have hle := hd c hc
        omega
      · have hle := hopposite c hc
        rw [Literal.value_bar]
        omega
    have hself : ∀ c, m.Bounds i i.bar c → -c ≤ 2 * (j.value v - d) := by
      intro c hc
      have hle := hunary c hc
      omega
    have hi : i.var ∉ ({j.var} : Finset (Fin n)) := by
      rw [Finset.mem_singleton]
      exact Ne.symm hvar
    obtain ⟨w, hw, hkeep, hle⟩ := hv.extend hm hi hlow hself
    obtain ⟨w', hw', hkeep'⟩ := hm.exists_point_of_pointOn hw
    have hjw := hkeep j (Finset.mem_singleton_self _)
    have hjw' := hkeep' j (Finset.mem_insert_of_mem (Finset.mem_singleton_self _))
    have hiw' := hkeep' i (Finset.mem_insert_self _ _)
    exact ⟨w', hw', by omega⟩

/-- Every bound is reached. -/
theorem exists_point_eq (hm : m.Tight) {c : Int} (hc : m.get i j = .finite c) :
    ∃ v, m.Point v ∧ j.value v - i.value v = c := by
  obtain ⟨v, hv, hle⟩ := hm.exists_point_ge i j c fun d hd => hd.le_of_get hc
  have hge := hv.le_of_bounds (bounds_of_get hc)
  exact ⟨v, hv, by omega⟩

/-- Without a bound, a difference exceeds every number. -/
theorem exists_point_of_absent (hm : m.Tight) (hij : m.get i j = .absent) (d : Int) :
    ∃ v, m.Point v ∧ d ≤ j.value v - i.value v := by
  apply hm.exists_point_ge i j d
  intro c hc
  obtain ⟨e, he, -⟩ := hc.exists_get
  rw [hij] at he
  cases he

end Tight

/-- `x + y ≤ 1` and `x ≤ y`. -/
def halfPlane : Matrix 2 := ((top 2).addSum (.pos 0) (.pos 1) 1).addSum (.pos 0) (.neg 1) 0

end Matrix

end Lifespan
