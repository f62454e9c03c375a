import Lifespan.Proofs.Octagon.Join

namespace Lifespan

theorem Interval.eq_none_none_of_contains {a : Interval} (h : ∀ t, a.Contains t) :
    a = ⟨none, none⟩ := by
  obtain ⟨_ | l, _ | u⟩ := a
  · rfl
  · have := (h (u + 1)).2 u rfl
    omega
  · have := (h (l - 1)).1 l rfl
    omega
  · have := (h (l - 1)).1 l rfl
    omega

variable {n : Nat}

namespace Matrix

variable {m : Matrix n} {v : Fin n → Int} {i j : Literal n} {x : Fin n}

/-- What an item says of a valuation. -/
def Item.Holds (v : Fin n → Int) : Item n → Prop
  | .equals x c => v x = c
  | .within x lo hi => (⟨lo, hi⟩ : Interval).Contains (v x)
  | .sum i j c => i.value v + j.value v ≤ c

theorem allows_iff_upper? : (m.get i.bar i).Allows (i.value v - i.bar.value v) ↔
    ∀ c ∈ m.upper? i, i.value v ≤ c := by
  rw [Literal.value_bar, upper?]
  cases m.get i.bar i with
  | absent => simp [Bound.toInt?]
  | finite c =>
    simp only [Bound.allows_finite, Bound.toInt?, Option.map_some, Option.mem_some_iff, forall_eq']
    omega

theorem allows_iff_upperSum? :
    (m.get j.bar i).Allows (i.value v - j.bar.value v) ↔
    ∀ c ∈ m.upperSum? i j, i.value v + j.value v ≤ c := by
  rw [Literal.value_bar, upperSum?]
  cases m.get j.bar i with
  | absent => simp [Bound.toInt?]
  | finite c =>
    simp only [Bound.allows_finite, Bound.toInt?, Option.mem_some_iff, forall_eq']
    omega

theorem contains_interval_iff : (m.interval x).Contains (v x) ↔
    (∀ c ∈ m.upper? (.neg x), (Literal.neg x).value v ≤ c) ∧ ∀ c ∈ m.upper? (.pos x),
    (Literal.pos x).value v ≤ c := by
  refine and_congr ?_ Iff.rfl
  rw [interval, Literal.value_neg]
  cases m.upper? (.neg x) with
  | none => simp
  | some c =>
    simp only [Option.map_some, Option.mem_some_iff, forall_eq']
    omega

/-- A range is left out only if it has no end. -/
theorem rangeItem?_holds_iff : (∀ it ∈ m.rangeItem? x, it.Holds v) ↔
    (m.interval x).Contains (v x) := by
  unfold rangeItem?
  split
  case h_1 h => simp [h, Interval.Contains]
  case h_2 l h hlh =>
    rw [hlh]
    split
    case isTrue heq =>
      simp only [heq, Option.mem_some_iff, forall_eq', Item.Holds, Interval.Contains]
      omega
    case isFalse => simp only [Option.mem_some_iff, forall_eq', Item.Holds]
  case h_3 h => simp only [h, Option.mem_some_iff, forall_eq', Item.Holds]

/-- A bound on a sum is left out only if the bounds on the summands imply it. -/
theorem sumItem?_holds_iff (hi : ∀ c ∈ m.upper? i, i.value v ≤ c)
    (hj : ∀ c ∈ m.upper? j, j.value v ≤ c) :
    (∀ it ∈ m.sumItem? i j, it.Holds v) ↔ ∀ c ∈ m.upperSum? i j, i.value v + j.value v ≤ c := by
  unfold sumItem?
  cases m.upperSum? i j with
  | none => simp
  | some c =>
    simp only [Option.bind_eq_bind, Option.bind_some, Option.mem_some_iff, forall_eq']
    split
    case h_1 implied himplied =>
      obtain ⟨a, b, ha, hb, rfl⟩ := Interval.sumEnds_eq_some himplied
      have hai := hi a ha
      have hbj := hj b hb
      split
      · simp only [Option.not_mem_none, false_imp_iff, implies_true, true_iff]
        omega
      · simp only [Option.mem_some_iff, forall_eq', Item.Holds]
    · simp only [Option.mem_some_iff, forall_eq', Item.Holds]

theorem mem_signs (p q : Bool) : (p, q) ∈ signs := by
  cases p <;> cases q <;> decide

theorem mem_items {it : Item n} : it ∈ m.items ↔ (∃ x, m.rangeItem? x = some it) ∨
    ∃ i j : Literal n, i.var < j.var ∧ m.sumItem? i j = some it := by
  unfold items
  rw [List.mem_append, List.mem_filterMap, List.mem_flatMap]
  refine or_congr (by simp) ⟨?_, ?_⟩
  · rintro ⟨x, -, hit⟩
    obtain ⟨y, hy, hit⟩ := List.mem_flatMap.mp hit
    obtain ⟨⟨p, q⟩, -, hit⟩ := List.mem_filterMap.mp hit
    exact ⟨⟨x, p⟩, ⟨y, q⟩, of_decide_eq_true (List.mem_filter.mp hy).2, hit⟩
  · rintro ⟨⟨x, p⟩, ⟨y, q⟩, hlt, hit⟩
    refine ⟨x, List.mem_finRange x, List.mem_flatMap.mpr ⟨y, ?_, ?_⟩⟩
    · exact List.mem_filter.mpr ⟨List.mem_finRange y, decide_eq_true hlt⟩
    · exact List.mem_filterMap.mpr ⟨(p, q), mem_signs p q, hit⟩

/-- The items say that every literal and every sum of two literals, the one with the smaller
variable first, stays within its bound. -/
theorem items_hold_iff : (∀ it ∈ m.items, it.Holds v) ↔
    (∀ i : Literal n, ∀ c ∈ m.upper? i, i.value v ≤ c) ∧
    ∀ i j : Literal n, i.var < j.var → ∀ c ∈ m.upperSum? i j, i.value v + j.value v ≤ c := by
  constructor
  · intro h
    have hunary : ∀ i : Literal n, ∀ c ∈ m.upper? i, i.value v ≤ c := by
      rintro ⟨x, p⟩
      have hx :=
        contains_interval_iff.mp
        (rangeItem?_holds_iff.mp fun it hit => h it (mem_items.mpr (.inl ⟨x, hit⟩)))
      cases p with
      | false => exact hx.2
      | true => exact hx.1
    refine ⟨hunary, fun i j hij => ?_⟩
    exact (sumItem?_holds_iff (hunary i) (hunary j)).mp fun it hit =>
      h it (mem_items.mpr (.inr ⟨i, j, hij, hit⟩))
  · rintro ⟨hunary, hsum⟩ it hit
    rcases mem_items.mp hit with ⟨x, hit⟩ | ⟨i, j, hij, hit⟩
    · exact rangeItem?_holds_iff.mpr (contains_interval_iff.mpr ⟨hunary _, hunary _⟩) it hit
    · exact (sumItem?_holds_iff (hunary i) (hunary j)).mpr (hsum i j hij) it hit

theorem Point.items_hold (h : m.Point v) : ∀ it ∈ m.items, it.Holds v :=
  items_hold_iff.mpr ⟨fun i => allows_iff_upper?.mp (h i.bar i),
    fun i j _ => allows_iff_upperSum?.mp (h j.bar i)⟩

theorem exists_sum_of_sumItem? {it : Item n} (h : m.sumItem? i j = some it) :
    ∃ c, it = .sum i j c := by
  obtain ⟨c, -, h⟩ := Option.bind_eq_some_iff.mp h
  refine ⟨c, ?_⟩
  split at h
  · split at h
    · cases h
    · exact (Option.some.inj h).symm
  · exact (Option.some.inj h).symm

/-- No item is true everywhere. -/
theorem exists_not_holds {it : Item n} (hit : it ∈ m.items) : ∃ v, ¬ it.Holds v := by
  rcases mem_items.mp hit with ⟨x, hit⟩ | ⟨i, j, hij, hit⟩
  · by_contra! hall
    have hcontains : ∀ t, (m.interval x).Contains t := fun t => by
      have hitems : ∀ it' ∈ m.rangeItem? x, it'.Holds fun _ => t := by
        simpa [hit] using hall fun _ => t
      exact rangeItem?_holds_iff.mp hitems
    rw [rangeItem?, Interval.eq_none_none_of_contains hcontains] at hit
    cases hit
  · obtain ⟨c, rfl⟩ := exists_sum_of_sumItem? hit
    have hne : j.var ≠ i.var := (Fin.ne_of_lt hij).symm
    refine ⟨i.assign (fun _ => 0) (c + 1 - j.value fun _ => 0), ?_⟩
    rw [Item.Holds, Literal.value_assign_self, Literal.value_assign_of_ne hne]
    omega

/-- Of the two cells that hold a bound one is listed, so all bounds are where the cells agree. -/
theorem Regular.point_of_items (hm : m.Regular) (h : ∀ it ∈ m.items, it.Holds v) : m.Point v := by
  obtain ⟨hunary, hsum⟩ := items_hold_iff.mp h
  have hlisted : ∀ i j : Literal n, i.var < j.var →
      (m.get j.bar i).Allows (i.value v - j.bar.value v) :=
    fun i j hij => allows_iff_upperSum?.mpr (hsum i j hij)
  intro i j
  rcases lt_trichotomy i.var j.var with hlt | heq | hgt
  · have hmirror := hlisted i.bar j hlt
    have hdiff : i.bar.value v - j.bar.value v = j.value v - i.value v := by
      rw [Literal.value_bar, Literal.value_bar]
      omega
    rwa [hm.coherent, hdiff] at hmirror
  · rcases Literal.eq_or_eq_bar heq with rfl | rfl
    · simp [hm.diagonal]
    · exact allows_iff_upper?.mpr (hunary j)
  · simpa using hlisted j i.bar hgt

end Matrix

namespace Octagon

variable {s t : Octagon n} {m : Matrix n} {name : Fin n → String}

theorem text_of_closure? (h : s.closure? = some m) : s.text name = if m.items = [] then "⊤" else
    "\x7b" ++ ", ".intercalate (m.items.map (Matrix.Item.text name)) ++ "\x7d" := by
  rw [text, h]
  cases hitems : m.items with
  | nil => simp [hitems]
  | cons it rest => simp [hitems]

theorem braced_ne (text : String) : "\x7b" ++ text ++ "\x7d" ≠ "⊥" ∧ "\x7b" ++ text ++
    "\x7d" ≠ "⊤" := by
  constructor <;> intro h <;> simpa using congrArg (·.toList.head?) h

theorem text_eq_bottom_iff : s.text name = "⊥" ↔ s.closure? = none := by
  cases h : s.closure? with
  | none => simp [text, h]
  | some m =>
    rw [text_of_closure? h]
    split
    · simp
    · simp [(braced_ne _).1]

theorem text_eq_top_iff (h : s.closure? = some m) : s.text name = "⊤" ↔ m.items = [] := by
  rw [text_of_closure? h]
  split
  · simp_all
  · simp_all [(braced_ne _).2]

theorem text_congr (h : s.same t = true) : s.text name = t.text name := by
  have hclosure : s.closure? = t.closure? := of_decide_eq_true h
  rw [text, text, hclosure]

theorem Built.regular_closure? {moved : Matrix n → Prop} (h : Built moved s) (hs : s.Closable)
    (hm : s.closure? = some m) : m.Regular :=
  (h.represents (marked_regular moved)).of_closure? (marked_regular moved) hs hm

end Octagon

namespace AbstractState

open Octagon

theorem text_of_same {s t : AbstractState} (h : s.same t = true) : s.text = t.text := by
  obtain ⟨env, a⟩ := s
  obtain ⟨env', b⟩ := t
  unfold same at h
  split at h
  case isTrue henv =>
    obtain rfl : env = env' := henv
    exact text_congr h
  case isFalse => cases h

/-- The text is `⊥` for the empty states, and equal states have one text. All that is written holds
at the points of the state, and where the two cells of each bound agree nothing else is a point, so
that `⊤` is written for the states that allow everything. The cells agree in every state that the
operations build without a sum that reaches the limit. -/
theorem text_faithful (s : AbstractState) :
    (s.text = "⊥" ↔ s.isBottom = true) ∧
    (∀ t : AbstractState, s.same t = true → s.text = t.text) ∧
    (∀ m, s.shape.closure? = some m →
      (s.text = if m.items = [] then "⊤" else
        "\x7b" ++ ", ".intercalate (m.items.map (Matrix.Item.text fun x => s.env.vars[x])) ++
        "\x7d") ∧
      (∀ v, s.shape.Point v → ∀ it ∈ m.items, it.Holds v) ∧
      (m.Regular → (∀ v, s.shape.Point v ↔ ∀ it ∈ m.items, it.Holds v) ∧
        (s.text = "⊤" ↔ ∀ v, s.shape.Point v))) ∧
    ∀ moved, Built moved s.shape → s.shape.Closable →
    ∀ m, s.shape.closure? = some m → m.Regular := by
  refine ⟨?_, fun t h => text_of_same h, fun m hm => ?_, fun moved hs hclosable m =>
    hs.regular_closure? hclosable⟩
  · rw [text, text_eq_bottom_iff, isBottom, isEmpty, Option.isNone_iff_eq_none]
  · have hholds : ∀ v, s.shape.Point v → ∀ it ∈ m.items, it.Holds v := fun v hv =>
      ((point_of_closure? hm).mp hv).items_hold
    refine ⟨text_of_closure? hm, hholds, fun hregular => ?_⟩
    have hpoint : ∀ v, s.shape.Point v ↔ ∀ it ∈ m.items, it.Holds v := fun v =>
      ⟨hholds v, fun h => (point_of_closure? hm).mpr (hregular.point_of_items h)⟩
    refine ⟨hpoint, ?_⟩
    rw [text, text_eq_top_iff hm]
    constructor
    · intro hitems v
      simp [hpoint, hitems]
    · intro hall
      refine List.eq_nil_iff_forall_not_mem.mpr fun it hit => ?_
      obtain ⟨v, hv⟩ := Matrix.exists_not_holds hit
      exact hv ((hpoint v).mp (hall v) it hit)

/-- `x + 2 ^ 123 ≥ 0`, `y - x + 2 ^ 124 ≥ 0` and `x + z ≤ -10`. -/
def oneSided (x z y : Fin 3) : Octagon 3 :=
  let quarter : Term (Fin 3) := .mul (.const 0x4000000000000000) (.const 0x2000000000000000)
  let half : Term (Fin 3) := .mul (.const 0x4000000000000000) (.const 0x4000000000000000)
  (((Octagon.top 3).meet ⟨.add (.var x) quarter, .ge⟩).meet
    ⟨.add (.sub (.var y) (.var x)) half, .ge⟩).meet
    ⟨.sub (.sub (.const (-10)) (.var z)) (.var x), .ge⟩

/-- The join with `z ≤ y`. -/
def lopsided (x z y : Fin 3) : Octagon 3 :=
  (oneSided x z y).join ((Octagon.top 3).meet ⟨.sub (.var y) (.var z), .ge⟩)

/-- On one of two paths between the same literals a sum reaches the limit and is dropped, so one
cell holds the bound on `z - y` and the other none. The text reads the other. -/
theorem lopsided_text :
    text ⟨.ofNodup ["x", "z", "y"] (by decide), lopsided 0 1 2⟩ = "⊤" ∧
    ∃ v, ¬ (lopsided 0 1 2).Point v := by
  have hitems : (lopsided 0 1 2).closure?.map (·.items.isEmpty) = some true := by decide +kernel
  have hcell : (lopsided 0 1 2).matrix?.map (·.get (.neg 1) (.neg 2)) =
      some (.finite 42535295865117307932921825928971026422) := by decide +kernel
  refine ⟨?_, fun i => if i = 2 then -2 ^ 126 else 0, ?_⟩
  · obtain ⟨m, hm, hempty⟩ := Option.map_eq_some_iff.mp hitems
    exact (text_eq_top_iff hm).mpr (List.isEmpty_iff.mp hempty)
  · rintro ⟨m, hm, hpoint⟩
    obtain ⟨k, hk, hget⟩ := Option.map_eq_some_iff.mp hcell
    obtain rfl := Option.some.inj (hk.symm.trans hm)
    have hallows := hpoint (.neg 1) (.neg 2)
    rw [hget, Literal.value_neg, Literal.value_neg] at hallows
    have hle : -(-2 ^ 126) - -0 ≤ (42535295865117307932921825928971026422 : Int) :=
      Bound.allows_finite.mp hallows
    omega

end AbstractState

end Lifespan
