import Lifespan.Proofs.Octagon.Representation

namespace Lifespan

variable {n : Nat}

theorem Bound.isNegative_iff {b : Bound} : b.isNegative = true ↔ b ≤ finite (-1) := by
  cases b with
  | absent => simp [isNegative]
  | finite c =>
    simp only [isNegative, decide_eq_true_eq, finite_le_finite]
    omega

namespace Literal

theorem nodup_all (n : Nat) : (all n).Nodup := by
  refine (List.nodup_finRange (2 * n)).map fun k l h => ?_
  rw [← index_ofIndex k, h, index_ofIndex]

end Literal

namespace Matrix

variable {m t : Matrix n} {i j k p q : Literal n} {l done : List (Literal n)} {c : Int}
    {v : Fin n → Int}

/-- Overwrites the cells of row `i` one by one with the tighter of what stands there and what `f`
makes of the cell in row `source j` of the same column `j`. -/
def lowerRow (m : Matrix n) (i : Literal n) (source : Literal n → Literal n) (f : Bound → Bound) :
    Matrix n :=
  (Literal.all n).foldl (fun m j => m.set i j (min (m.get i j) (f (m.get (source j) j)))) m

/-- Allows paths from `i` through `k`. -/
def relaxRow (k : Literal n) (m : Matrix n) (i : Literal n) : Matrix n :=
  match m.get i k with
  | .absent => m
  | b => m.lowerRow i (fun _ => k) (b + ·)

def pivotInPlace (m : Matrix n) (k : Literal n) : Matrix n := (Literal.all n).foldl (relaxRow k) m

def shortestPathsInPlace (m : Matrix n) : Matrix n := (Literal.all n).foldl pivotInPlace m

def tightenInPlace (m : Matrix n) : Matrix n :=
  (Literal.all n).foldl (fun m i => m.set i i.bar (m.get i i.bar).even) m

def strengthenInPlace (m : Matrix n) : Matrix n :=
  (Literal.all n).foldl (fun m i => m.lowerRow i Literal.bar (m.get i i.bar).halfSum) m

/-- Whether literal `i` shows that there is no point. -/
def refutedAt (m : Matrix n) (i : Literal n) : Bool :=
  (m.get i i.bar + m.get i.bar i).isNegative || (m.get i i).isNegative

/-- Sets the diagonal to zero, unless a literal shows that there is no point. -/
def finishInPlace? (m : Matrix n) : Option (Matrix n) :=
  (Literal.all n).foldlM (fun m i => if m.refutedAt i then none else some (m.set i i (.finite 0))) m

/-- The shortest paths, none if a cycle is negative. -/
def pathsInPlace? (m : Matrix n) : Option (Matrix n) :=
  let paths := m.shortestPathsInPlace
  if paths.hasNegativeLoop then none else some paths

def closeInPlace? (m : Matrix n) : Option (Matrix n) :=
  m.pathsInPlace?.bind fun paths => paths.tightenInPlace.strengthenInPlace.finishInPlace?

/-- A cell of column `j` is written when column `j` is, so every cell that is read is as it was. -/
theorem get_foldl_lower (hl : l.Nodup) (source : Literal n → Literal n) (f : Bound → Bound) :
    (l.foldl (fun m j => m.set i j (min (m.get i j) (f (m.get (source j) j)))) m).get p q =
      if p = i ∧ q ∈ l then min (m.get i q) (f (m.get (source q) q)) else m.get p q := by
  induction l generalizing m with
  | nil => simp
  | cons j l ih =>
    obtain ⟨hj, hl⟩ := List.nodup_cons.mp hl
    have hother : ∀ p q, q ≠ j → (m.set i j (min (m.get i j) (f (m.get (source j) j)))).get p
        q = m.get p q := by
      intro p q hq
      rw [get_set, if_neg fun h => hq h.2.symm]
    rw [List.foldl_cons, ih hl]
    by_cases hq : q = j
    · subst hq
      simp [hj, get_set, eq_comm]
    · simp [hother _ _ hq, hq]

theorem get_lowerRow (source : Literal n → Literal n) (f : Bound → Bound) :
    (m.lowerRow i source f).get p q =
    if p = i then min (m.get i q) (f (m.get (source q) q)) else m.get p q := by
  rw [lowerRow, get_foldl_lower (Literal.nodup_all n)]
  simp [Literal.mem_all]

theorem get_relaxRow :
    (m.relaxRow k i).get p q = if p = i then (m.pivot k).get i q else m.get p q := by
  rw [relaxRow.eq_def, get_pivot]
  cases m.get i k with
  | absent => by_cases hp : p = i <;> simp [hp]
  | finite c => exact get_lowerRow _ _

/-- The rows of `t` that are done, and the other rows of `m`. -/
def mix (m t : Matrix n) (done : List (Literal n)) : Matrix n :=
  ofFn fun p q => if p ∈ done then t.get p q else m.get p q

theorem get_mix : (m.mix t done).get p q = if p ∈ done then t.get p q else m.get p q := by
  rw [mix, get_ofFn]

theorem get_mix_of_eq (h : t.get p q = m.get p q) : (m.mix t done).get p q = m.get p q := by
  rw [get_mix, h, ite_self]

theorem get_mix_of_not_mem (h : p ∉ done) : (m.mix t done).get p q = m.get p q := by
  rw [get_mix, if_neg h]

theorem mix_nil : m.mix t [] = m := by
  apply ext_get
  simp [get_mix]

theorem mix_of_all (h : ∀ i, i ∈ done) : m.mix t done = t := by
  apply ext_get
  simp [get_mix, h]

/-- A step that does one row, or stops at a bad one, leaves all rows done unless one is bad. -/
theorem foldlM_rows {step : Matrix n → Literal n → Option (Matrix n)} {bad : Literal n → Bool}
    (hstep : ∀ done i, i ∉ done → step (m.mix t done) i = if bad i then none else some
      (m.mix t (i :: done))) :
    (Literal.all n).foldlM step m = if (Literal.all n).any bad then none else some t := by
  have hrows : ∀ (l done : List (Literal n)), (l.reverse ++ done).Nodup →
      l.foldlM step (m.mix t done) =
      if l.any bad then none else some (m.mix t (l.reverse ++ done)) := by
    intro l
    induction l with
    | nil => exact fun done _ => rfl
    | cons i l ih =>
      intro done hnodup
      rw [List.reverse_cons, List.append_assoc, List.singleton_append] at hnodup ⊢
      have hi : i ∉ done := (List.nodup_cons.mp (List.nodup_append.mp hnodup).2.1).1
      rw [List.foldlM_cons, hstep done i hi, List.any_cons]
      cases bad i with
      | true => rfl
      | false => exact ih _ hnodup
  have hall := hrows (Literal.all n) [] (by simpa using Literal.nodup_all n)
  rwa [mix_nil, mix_of_all (by simp [Literal.mem_all])] at hall

theorem foldl_rows {step : Matrix n → Literal n → Matrix n}
    (hstep : ∀ done i, i ∉ done → step (m.mix t done) i = m.mix t (i :: done)) :
    (Literal.all n).foldl step m = t := by
  have hall : (Literal.all n).foldlM (fun m i => some (step m i)) m =
      if (Literal.all n).any (fun _ => false) then none else some t :=
    foldlM_rows fun done i hi => congrArg some (hstep done i hi)
  rw [List.any_eq_false.mpr (by simp), if_neg Bool.false_ne_true] at hall
  exact Option.some.inj (List.foldlM_pure.symm.trans hall)

/-- Paths through `k` do not change the row of `k`, unless a cycle through it is negative. -/
theorem get_pivot_self (h : (m.get k k).isNegative = false) : (m.pivot k).get k q = m.get k q := by
  rw [get_pivot]
  cases hk : m.get k k with
  | absent => rfl
  | finite c =>
    have hc : 0 ≤ c := by simpa [hk, Bound.isNegative] using h
    apply Bound.eq_of_le_finite_iff
    intro d
    rw [Bound.min_le_finite]
    refine ⟨?_, .inl⟩
    rintro (hd | hd)
    · exact hd
    · obtain ⟨a, b, ha, hb, -, hle⟩ := Bound.add_le_finite.mp hd
      cases ha
      rw [hb, Bound.finite_le_finite]
      omega

theorem pivotInPlace_eq (h : (m.get k k).isNegative = false) : m.pivotInPlace k = m.pivot k := by
  apply foldl_rows
  intro done i hi
  have hrow : ((m.mix (m.pivot k) done).pivot k).get i = (m.pivot k).get i := by
    funext q
    simp only [get_pivot, get_mix_of_not_mem hi, get_mix_of_eq (get_pivot_self h)]
  apply ext_get
  intro p q
  rw [get_relaxRow, hrow, get_mix, get_mix]
  by_cases hp : p = i <;> simp [hp]

theorem tightenInPlace_eq (m : Matrix n) : m.tightenInPlace = m.tighten := by
  apply foldl_rows
  intro done i hi
  apply ext_get
  intro p q
  rw [get_set, get_mix_of_not_mem hi, get_mix, get_mix]
  by_cases hp : i = p
  · subst hp
    by_cases hq : i.bar = q
    · simp [← hq, get_tighten_bar]
    · simp [hq, hi, tighten, Ne.symm hq]
  · simp [hp, Ne.symm hp]

/-- Strengthening leaves unary bounds alone: half of a bound and itself is the bound. -/
theorem get_strengthen_bar (m : Matrix n) (i : Literal n) :
    m.strengthen.get i i.bar = m.get i i.bar := by
  rw [strengthen, get_ofFn, Literal.bar_bar]
  apply Bound.eq_of_le_finite_iff
  intro d
  rw [Bound.min_le_finite]
  refine ⟨?_, .inl⟩
  rintro (hd | hd)
  · exact hd
  · cases ha : m.get i i.bar with
    | absent => simp [ha, Bound.halfSum] at hd
    | finite a =>
      rw [ha, Bound.halfSum, Bound.ofInt_le_finite] at hd
      rw [Bound.finite_le_finite]
      omega

theorem strengthenInPlace_eq (m : Matrix n) : m.strengthenInPlace = m.strengthen := by
  apply foldl_rows
  intro done i hi
  have hunary : ∀ q : Literal n, (m.mix m.strengthen done).get q.bar q = m.get q.bar q := by
    intro q
    apply get_mix_of_eq
    simpa using m.get_strengthen_bar q.bar
  apply ext_get
  intro p q
  rw [get_lowerRow, hunary, get_mix_of_not_mem hi, get_mix_of_not_mem hi, get_mix, get_mix]
  by_cases hp : p = i
  · simp [hp, strengthen]
  · simp [hp]

theorem hasNegativeLoop_iff : m.hasNegativeLoop = true ↔ ∃ i, m.Bounds i i (-1) := by
  simp only [hasNegativeLoop, List.any_eq_true, Literal.mem_all, true_and,
    Bound.isNegative_iff, Bounds]

theorem Bounds.pivotInPlace (h : m.Bounds p q c) (k : Literal n) :
    (m.pivotInPlace k).Bounds p q c := by
  refine List.foldlRecOn (motive := (Bounds · p q c)) _ _ h fun t ht i _ => ?_
  rw [Bounds, get_relaxRow]
  split
  case isTrue hp =>
    exact hp ▸ ht.pivot k
  case isFalse => exact ht

/-- A negative cycle stays one, whatever is read after it was found. -/
theorem foldl_pivotInPlace (l : List (Literal n)) (m : Matrix n) :
    l.foldl Matrix.pivotInPlace m = l.foldl pivot m ∨
      (l.foldl Matrix.pivotInPlace m).hasNegativeLoop = true ∧
      (l.foldl pivot m).hasNegativeLoop = true := by
  induction l generalizing m with
  | nil => exact .inl rfl
  | cons k l ih =>
    cases hk : (m.get k k).isNegative with
    | false =>
      rw [List.foldl_cons, List.foldl_cons, pivotInPlace_eq hk]
      exact ih _
    | true =>
      have hloop : m.Bounds k k (-1) := Bound.isNegative_iff.mp hk
      refine .inr ⟨hasNegativeLoop_iff.mpr ⟨k, ?_⟩, hasNegativeLoop_iff.mpr ⟨k, ?_⟩⟩
      · exact List.foldlRecOn (motive := (Bounds · k k (-1))) _ _ hloop fun _ h i
          _ => h.pivotInPlace i
      · exact List.foldlRecOn (motive := (Bounds · k k (-1))) _ _ hloop fun _ h i _ => h.pivot i

theorem shortestPathsInPlace_cases (m : Matrix n) : m.shortestPathsInPlace = m.shortestPaths ∨
    m.shortestPathsInPlace.hasNegativeLoop = true ∧ m.shortestPaths.hasNegativeLoop = true :=
  foldl_pivotInPlace _ m

theorem point_shortestPathsInPlace : m.shortestPathsInPlace.Point v ↔ m.Point v := by
  rcases m.shortestPathsInPlace_cases with heq | ⟨hplace, hpaths⟩
  · rw [heq]
    exact point_shortestPaths
  · refine iff_of_false (not_point_of_hasNegativeLoop hplace) ?_
    rw [← point_shortestPaths]
    exact not_point_of_hasNegativeLoop hpaths

/-- Rows that are done differ on the diagonal, and only rows that are not done are looked
at there. -/
theorem finishInPlace?_eq (m : Matrix n) : m.finishInPlace? =
    if m.hasEmptyRange || m.hasNegativeLoop then none else some m.zeroDiagonal := by
  have hfinish : m.finishInPlace? = if (Literal.all n).any m.refutedAt then none else some
      m.zeroDiagonal := by
    apply foldlM_rows
    intro done i hi
    have hoff : ∀ p q : Literal n, p ≠ q → (m.mix m.zeroDiagonal done).get p q = m.get p q := by
      intro p q hpq
      apply get_mix_of_eq
      rw [zeroDiagonal, get_ofFn, if_neg hpq]
    have hbad : (m.mix m.zeroDiagonal done).refutedAt i = m.refutedAt i := by
      rw [refutedAt, hoff _ _ i.bar_ne.symm, hoff _ _ i.bar_ne, get_mix_of_not_mem hi, refutedAt]
    have hrow : (m.mix m.zeroDiagonal done).set i i (.finite 0) = m.mix m.zeroDiagonal
        (i :: done) := by
      apply ext_get
      intro p q
      rw [get_set, get_mix, get_mix]
      by_cases hp : i = p
      · subst hp
        by_cases hq : i = q <;> simp [hq, hi, zeroDiagonal]
      · simp [hp, Ne.symm hp]
    rw [hbad, hrow]
  have hany : (Literal.all n).any m.refutedAt = (m.hasEmptyRange || m.hasNegativeLoop) := by
    rw [Bool.eq_iff_iff]
    simp only [Bool.or_eq_true, hasEmptyRange, hasNegativeLoop, refutedAt, List.any_eq_true,
      Literal.mem_all, true_and, exists_or]
  rw [hfinish, hany]

theorem closeInPlace?_eq (m : Matrix n) : m.closeInPlace? = m.close? := by
  unfold closeInPlace? pathsInPlace? close?
  rcases m.shortestPathsInPlace_cases with heq | ⟨hplace, hpaths⟩
  · rw [heq]
    dsimp only
    split
    · rfl
    · simp only [Option.bind_some, tightenInPlace_eq, strengthenInPlace_eq, finishInPlace?_eq]
  · simp only [hplace, hpaths, if_true, Option.bind_none]

/-- What becomes of `m` has its points, and nothing becomes of it only if it has none. -/
def KeepsPoints (m : Matrix n) : Option (Matrix n) → Prop
  | none => ¬ ∃ v, m.Point v
  | some k => ∀ v, k.Point v ↔ m.Point v

theorem keepsPoints_close? (m : Matrix n) : m.KeepsPoints m.close? := by
  cases h : m.close? with
  | none =>
    rintro ⟨v, hv⟩
    exact not_point_of_close? h hv
  | some k => exact fun _ => point_close? h

theorem keepsPoints_pathsInPlace? (m : Matrix n) : m.KeepsPoints m.pathsInPlace? := by
  unfold pathsInPlace?
  dsimp only
  split
  case isTrue hloop =>
    rintro ⟨v, hv⟩
    exact not_point_of_hasNegativeLoop hloop (point_shortestPathsInPlace.mpr hv)
  case isFalse => exact fun _ => point_shortestPathsInPlace

theorem keepsPoints_finishInPlace? (m : Matrix n) : m.KeepsPoints m.finishInPlace? := by
  rw [finishInPlace?_eq]
  split
  case isTrue hbad =>
    rintro ⟨v, hv⟩
    rcases Bool.or_eq_true_iff.mp hbad with hempty | hloop
    · exact not_point_of_hasEmptyRange hempty hv
    · exact not_point_of_hasNegativeLoop hloop hv
  case isFalse hgood =>
    have hloop : m.hasNegativeLoop = false :=
      (Bool.or_eq_false_iff.mp (Bool.eq_false_iff.mpr hgood)).2
    exact fun _ => point_zeroDiagonal hloop

theorem KeepsPoints.of_points {k : Option (Matrix n)} (h : t.KeepsPoints k)
    (ht : ∀ v, t.Point v ↔ m.Point v) :
    m.KeepsPoints k := by
  cases k with
  | none =>
    rintro ⟨v, hv⟩
    exact h ⟨v, (ht v).mpr hv⟩
  | some k => exact fun v => (h v).trans (ht v)

/-- Closing never changes what a matrix means, whatever its cells are and whether or not it is
overwritten while it is read. Neither do the phases by themselves: shortest paths, rounding, and
strengthening with the checks after it. -/
theorem close?_keeps_meaning (m : Matrix n) :
    m.closeInPlace? = m.close? ∧ m.KeepsPoints m.close? ∧
    m.KeepsPoints m.pathsInPlace? ∧ m.KeepsPoints (some m.tightenInPlace) ∧
    m.KeepsPoints m.strengthenInPlace.finishInPlace? ∧
    m.KeepsPoints (some m.shortestPaths) ∧ m.KeepsPoints (some m.tighten) ∧
    m.KeepsPoints (some m.strengthen) := by
  rw [tightenInPlace_eq, strengthenInPlace_eq]
  exact ⟨m.closeInPlace?_eq, m.keepsPoints_close?, m.keepsPoints_pathsInPlace?,
    fun _ => point_tighten, m.strengthen.keepsPoints_finishInPlace?.of_points fun _ =>
      point_strengthen,
    fun _ => point_shortestPaths, fun _ => point_tighten, fun _ => point_strengthen⟩

end Matrix

end Lifespan
