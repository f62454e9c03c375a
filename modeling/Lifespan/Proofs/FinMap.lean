import Lifespan.FinMap

namespace Lifespan.FinMap

variable {κ ν : Type} [Ord κ]

variable [Std.TransOrd κ]

/-- The value of two maps under one key, where a missing value is neutral. -/
def combine (f : ν → ν → ν) : Option ν → Option ν → Option ν
  | none, b => b
  | some a, none => some a
  | some a, some b => some (f a b)

variable [Std.LawfulEqOrd κ]

theorem get?_foldl_insertWith (f : ν → ν → ν) (m : FinMap κ ν) (k : κ) {l : List (κ × ν)}
    (h : l.Pairwise fun a b => compare a.1 b.1 = .lt) :
    (l.foldl (fun m e => m.insertWith f e.1 e.2) m).get? k = combine f (m.get? k) (lookup k l) := by
  induction l generalizing m with
  | nil => cases hm : m.get? k <;> simp [combine, lookup, hm]
  | cons e rest ih =>
    have hrest := List.pairwise_cons.mp h
    rw [List.foldl_cons, ih _ hrest.2, lookup_cons]
    by_cases hk : compare k e.1 = .eq
    · obtain rfl : k = e.1 := Std.LawfulEqCmp.eq_of_compare hk
      have hnone : lookup e.1 rest = none := by
        apply lookup_eq_none
        intro a ha
        simp [hrest.1 a ha]
      rw [hnone, get?_insertWith_self, if_pos hk]
      cases m.get? e.1 <;> rfl
    · rw [get?_insertWith_of_ne f m e.2 hk, if_neg hk]

theorem get?_merge (f : ν → ν → ν) (a b : FinMap κ ν) (k : κ) :
    (merge f a b).get? k = combine f (a.get? k) (b.get? k) :=
  get?_foldl_insertWith f a k b.sorted

/-- A key that is found in a sorted list does not stand before it. -/
theorem not_lt_of_lookup_eq {a b : κ × ν} {l l' : List (κ × ν)}
    (hl' : ∀ c ∈ l', compare b.1 c.1 = .lt) (h : lookup a.1 (a :: l) = lookup a.1 (b :: l')) :
    compare a.1 b.1 ≠ .lt := by
  intro hlt
  have hnone : lookup a.1 (b :: l') = none := by
    apply lookup_eq_none
    intro c hc
    rcases List.mem_cons.mp hc with rfl | hc
    · simp [hlt]
    · simp [Std.TransCmp.lt_trans hlt (hl' c hc)]
  rw [hnone, lookup_cons] at h
  simp at h

theorem eq_of_lookup_eq {l l' : List (κ × ν)} (hl : l.Pairwise fun a b => compare a.1 b.1 = .lt)
    (hl' : l'.Pairwise fun a b => compare a.1 b.1 = .lt) (h : ∀ k, lookup k l = lookup k l') :
    l = l' := by
  induction l generalizing l' with
  | nil =>
    cases l' with
    | nil => rfl
    | cons e rest =>
      have he := h e.1
      simp [lookup] at he
  | cons e rest ih =>
    have hrest := List.pairwise_cons.mp hl
    cases l' with
    | nil =>
      have he := h e.1
      simp [lookup] at he
    | cons e' rest' =>
      have hrest' := List.pairwise_cons.mp hl'
      have hkey : e.1 = e'.1 := by
        have hlt := not_lt_of_lookup_eq hrest'.1 (h e.1)
        have hgt := not_lt_of_lookup_eq hrest.1 (h e'.1).symm
        cases hc : compare e.1 e'.1 with
        | lt => exact absurd hc hlt
        | eq => exact Std.LawfulEqCmp.eq_of_compare hc
        | gt => exact absurd (Std.OrientedCmp.lt_of_gt hc) hgt
      have hvalue : e.2 = e'.2 := by
        have he := h e.1
        rw [lookup_cons, lookup_cons, ← hkey] at he
        simpa using he
      have htail : ∀ k, lookup k rest = lookup k rest' := by
        intro k
        by_cases hk : compare k e.1 = .eq
        · obtain rfl : k = e.1 := Std.LawfulEqCmp.eq_of_compare hk
          rw [lookup_eq_none fun c hc => by simp [hrest.1 c hc],
            lookup_eq_none fun c hc => by simp [hkey, hrest'.1 c hc]]
        · have hk' := h k
          rwa [lookup_cons, lookup_cons, if_neg hk, if_neg (hkey ▸ hk)] at hk'
      rw [ih hrest.2 hrest'.2 htail, Prod.ext hkey hvalue]

/-- A map is known from what it holds under each key. -/
theorem ext_get? {a b : FinMap κ ν} (h : ∀ k, a.get? k = b.get? k) : a = b := by
  obtain ⟨l, hl⟩ := a
  obtain ⟨l', hl'⟩ := b
  obtain rfl : l = l' := eq_of_lookup_eq hl hl' h
  rfl

omit [Std.TransOrd κ] in
theorem get?_eq_some {m : FinMap κ ν} {k : κ} {a : ν} :
    m.get? k = some a ↔ (k, a) ∈ m.entries := by
  obtain ⟨l, hsorted⟩ := m
  rw [get?_eq_lookup]
  induction l with
  | nil => simp [lookup]
  | cons e l ih =>
    obtain ⟨hhead, htail⟩ := List.pairwise_cons.mp hsorted
    rw [lookup_cons, List.mem_cons]
    by_cases hk : k = e.1
    · subst hk
      have hout : (e.1, a) ∉ l := by
        intro hmem
        have hlt := hhead _ hmem
        simp at hlt
      simp [hout, Prod.ext_iff, eq_comm]
    · rw [if_neg (mt Std.LawfulEqCmp.compare_eq_iff_eq.mp hk), ih htail]
      simp [Prod.ext_iff, hk]

omit [Std.TransOrd κ] in
theorem mem_keys (m : FinMap κ ν) (k : κ) : k ∈ m.keys ↔ (m.get? k).isSome = true := by
  rw [get?_eq_lookup, keys, lookup, Option.isSome_map, List.find?_isSome, List.mem_map]
  constructor
  · rintro ⟨e, he, rfl⟩
    exact ⟨e, he, by simp⟩
  · rintro ⟨e, he, hk⟩
    exact ⟨e, he, (by simpa using hk : k = e.1).symm⟩

namespace Locates

variable {α : Type} {m : FinMap κ Nat} {keys : List κ} {k : κ} {key : α → κ} {l : List α} {a : α}

omit [Std.TransOrd κ] [Std.LawfulEqOrd κ] in
/-- Keys that stand in one place only are held under that place. -/
theorem get?_eq_some (h : m.Locates keys) (hn : keys.Nodup) {i : Nat} :
    m.get? k = some i ↔ keys[i]? = some k := by
  refine ⟨h.found, fun hi => ?_⟩
  obtain ⟨j, hj⟩ := Option.isSome_iff_exists.mp (h.complete (List.mem_of_getElem? hi))
  rw [hj, (List.getElem?_inj (h.lt_length hj) hn).mp ((h.found hj).trans hi.symm)]

omit [Std.TransOrd κ] [Std.LawfulEqOrd κ] in
theorem find?_eq_none (h : m.Locates (l.map key)) : h.find? k = none ↔ ∀ a ∈ l, key a ≠ k := by
  have hnone : h.find? k = none ↔ m.get? k = none := by
    unfold find?
    split
    case h_1 hk => exact iff_of_true rfl hk
    case h_2 i hk => simp [hk]
  rw [hnone, h.get?_eq_none, List.mem_map]
  exact ⟨fun hno a ha heq => hno ⟨a, ha, heq⟩, fun hno ⟨a, ha, heq⟩ => hno a ha heq⟩

omit [Std.TransOrd κ] [Std.LawfulEqOrd κ] in
theorem mem_of_find? (h : m.Locates (l.map key)) (ha : h.find? k = some a) : a ∈ l ∧ key a = k := by
  unfold find? at ha
  split at ha
  case h_1 => cases ha
  case h_2 i hk =>
    obtain rfl := Option.some.inj ha
    refine ⟨List.get_mem _ _, ?_⟩
    have hfound := (List.getElem?_eq_some_iff.mp (h.found hk)).2
    rwa [List.getElem_map] at hfound

omit [Std.TransOrd κ] [Std.LawfulEqOrd κ] in
/-- Where keys are distinct, a member is found by its own. -/
theorem find?_eq_some (h : m.Locates (l.map key)) (hn : (l.map key).Nodup) :
    h.find? k = some a ↔ a ∈ l ∧ key a = k := by
  refine ⟨h.mem_of_find?, ?_⟩
  rintro ⟨ha, rfl⟩
  cases hfind : h.find? (key a) with
  | none => exact absurd rfl (h.find?_eq_none.mp hfind a ha)
  | some b =>
    obtain ⟨hb, hkey⟩ := h.mem_of_find? hfind
    obtain ⟨i, hi⟩ := List.getElem?_of_mem ha
    obtain ⟨j, hj⟩ := List.getElem?_of_mem hb
    have hij : (l.map key)[i]? = (l.map key)[j]? := by
      rw [List.getElem?_map, List.getElem?_map, hi, hj, Option.map_some, Option.map_some, hkey]
    have hlt : i < (l.map key).length := by simpa using (List.getElem?_eq_some_iff.mp hi).1
    obtain rfl := (List.getElem?_inj hlt hn).mp hij
    rw [← hj, hi]

end Locates

end Lifespan.FinMap

namespace Lifespan.FinSet

variable {α : Type} [Ord α]

theorem not_mem_elems_empty (a : α) : a ∉ elems (FinMap.empty : FinSet α) := by
  simp [elems, FinMap.keys, FinMap.empty]

variable [Std.TransOrd α] [Std.LawfulEqOrd α]

omit [Std.TransOrd α] in
theorem mem_elems (s : FinSet α) (a : α) : a ∈ elems s ↔ (FinMap.get? s a).isSome = true :=
  FinMap.mem_keys s a

theorem mem_elems_merge (f : Unit → Unit → Unit) (s t : FinSet α) (a : α) :
    a ∈ elems (FinMap.merge f s t) ↔ a ∈ elems s ∨ a ∈ elems t := by
  rw [mem_elems, mem_elems, mem_elems, FinMap.get?_merge]
  cases FinMap.get? s a <;> cases FinMap.get? t a <;> simp [FinMap.combine]

theorem mem_elems_single (a b : α) : b ∈ elems (single a) ↔ b = a := by
  rw [mem_elems, single, FinMap.singleton]
  by_cases h : compare b a = .eq
  · obtain rfl : b = a := Std.LawfulEqCmp.eq_of_compare h
    simp [FinMap.get?_insert_self]
  · rw [FinMap.get?_insert_of_ne _ _ h]
    have hne : b ≠ a := by
      rintro rfl
      exact h Std.ReflCmp.compare_self
    simp [FinMap.empty, FinMap.get?, hne]

theorem mem_elems_insert (s : FinSet α) (a b : α) :
    b ∈ elems (FinMap.insert s a ()) ↔ b = a ∨ b ∈ elems s := by
  rw [mem_elems, mem_elems]
  by_cases h : b = a
  · subst h
    simp [FinMap.get?_insert_self]
  · rw [FinMap.get?_insert_of_ne _ _ (mt Std.LawfulEqCmp.eq_of_compare h)]
    simp [h]

omit [Std.TransOrd α] [Std.LawfulEqOrd α] in
/-- What is collected along a list is what its members bring. -/
theorem mem_elems_foldl {β : Type} {f : FinSet α → β → FinSet α} {P : β → α → Prop}
    (hf : ∀ s b a, a ∈ elems (f s b) ↔ P b a ∨ a ∈ elems s) (l : List β) (s : FinSet α) (a : α) :
    a ∈ elems (l.foldl f s) ↔ (∃ b ∈ l, P b a) ∨ a ∈ elems s := by
  induction l generalizing s with
  | nil => simp
  | cons b l ih =>
    rw [List.foldl_cons, ih, hf]
    simp only [List.mem_cons, exists_eq_or_imp]
    exact or_left_comm.trans or_assoc.symm

theorem ext_elems {s t : FinSet α} (h : ∀ a, a ∈ elems s ↔ a ∈ elems t) : s = t := by
  apply FinMap.ext_get?
  intro a
  have ha := h a
  rw [mem_elems, mem_elems] at ha
  cases hs : FinMap.get? s a <;> cases ht : FinMap.get? t a <;> simp_all

end Lifespan.FinSet
