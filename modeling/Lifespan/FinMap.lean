namespace Lifespan

/-- Values an analysis iterates over. `same` decides when the iteration has settled. -/
class AbstractDomain (D : Type) where
  join : D → D → D
  /-- The older value comes first. -/
  widen : D → D → D
  same : D → D → Bool

/-- A finite map, kept as its entries in strictly increasing order of the keys. -/
structure FinMap (κ ν : Type) [Ord κ] where
  entries : List (κ × ν)
  sorted : entries.Pairwise fun a b => compare a.1 b.1 = .lt

namespace FinMap

variable {κ ν : Type} [Ord κ]

instance [DecidableEq κ] [DecidableEq ν] : DecidableEq (FinMap κ ν) := fun a b =>
  if h : a.entries = b.entries then
    isTrue (by cases a; cases b; simp_all)
  else
    isFalse fun e => h (congrArg entries e)

/-- Puts `v` under `k`; a value already there is combined with it by `f`, the older one first. -/
def insertEntry (f : ν → ν → ν) (k : κ) (v : ν) : List (κ × ν) → List (κ × ν)
  | [] => [(k, v)]
  | e :: rest =>
    match compare k e.1 with
    | .lt => (k, v) :: e :: rest
    | .eq => (e.1, f e.2 v) :: rest
    | .gt => e :: insertEntry f k v rest

theorem key_of_mem_insertEntry {f : ν → ν → ν} {k : κ} {v : ν} {l : List (κ × ν)} {a : κ × ν}
    (h : a ∈ insertEntry f k v l) : a.1 = k ∨ ∃ b ∈ l, a.1 = b.1 := by
  induction l with
  | nil => simp_all [insertEntry]
  | cons e rest ih =>
    rw [insertEntry] at h
    split at h <;> grind

theorem insertEntry_sorted [Std.TransOrd κ] (f : ν → ν → ν) (k : κ) (v : ν) {l : List (κ × ν)}
    (h : l.Pairwise fun a b => compare a.1 b.1 = .lt) :
    (insertEntry f k v l).Pairwise fun a b => compare a.1 b.1 = .lt := by
  induction l with
  | nil => simp [insertEntry]
  | cons e rest ih =>
    have hrest := List.pairwise_cons.mp h
    rw [insertEntry]
    cases hk : compare k e.1 with
    | lt =>
      refine List.pairwise_cons.mpr ⟨fun b hb => ?_, h⟩
      rcases List.mem_cons.mp hb with rfl | hb
      · exact hk
      · exact Std.TransCmp.lt_trans hk (hrest.1 b hb)
    | eq => exact List.pairwise_cons.mpr ⟨hrest.1, hrest.2⟩
    | gt =>
      have hk : compare e.1 k = .lt := Std.OrientedCmp.lt_of_gt hk
      refine List.pairwise_cons.mpr ⟨fun b hb => ?_, ih hrest.2⟩
      rcases key_of_mem_insertEntry hb with hb | ⟨c, hc, hb⟩
      · rw [hb]; exact hk
      · rw [hb]; exact hrest.1 c hc

def empty : FinMap κ ν := ⟨[], .nil⟩

def insertWith [Std.TransOrd κ] (f : ν → ν → ν) (m : FinMap κ ν) (k : κ) (v : ν) : FinMap κ ν :=
  ⟨insertEntry f k v m.entries, insertEntry_sorted f k v m.sorted⟩

/-- Replaces the value of `k`. -/
def insert [Std.TransOrd κ] (m : FinMap κ ν) (k : κ) (v : ν) : FinMap κ ν :=
  m.insertWith (fun _ new => new) k v

def singleton [Std.TransOrd κ] (k : κ) (v : ν) : FinMap κ ν := empty.insert k v

/-- Later entries win. -/
def ofList [Std.TransOrd κ] (l : List (κ × ν)) : FinMap κ ν :=
  l.foldl (fun m e => m.insert e.1 e.2) empty

def get? (m : FinMap κ ν) (k : κ) : Option ν :=
  (m.entries.find? fun e => compare k e.1 == .eq).map (·.2)

def contains (m : FinMap κ ν) (k : κ) : Bool := (m.get? k).isSome

def keys (m : FinMap κ ν) : List κ := m.entries.map (·.1)

def size (m : FinMap κ ν) : Nat := m.entries.length

/-- Keys of both maps; `f` combines the values of the shared ones. -/
def merge [Std.TransOrd κ] (f : ν → ν → ν) (a b : FinMap κ ν) : FinMap κ ν :=
  b.entries.foldl (fun m e => m.insertWith f e.1 e.2) a

instance [Std.TransOrd κ] [DecidableEq κ] [DecidableEq ν] [AbstractDomain ν] :
    AbstractDomain (FinMap κ ν) where
  join := merge AbstractDomain.join
  widen := merge AbstractDomain.widen
  same a b := a = b

section Lookup

/-- The value under `k` in a list of entries. -/
def lookup (k : κ) (l : List (κ × ν)) : Option ν :=
  (l.find? fun e => compare k e.1 == .eq).map (·.2)

theorem get?_eq_lookup (m : FinMap κ ν) (k : κ) : m.get? k = lookup k m.entries := rfl

theorem lookup_cons (k : κ) (e : κ × ν) (l : List (κ × ν)) :
    lookup k (e :: l) = if compare k e.1 = .eq then some e.2 else lookup k l := by
  unfold lookup
  by_cases h : compare k e.1 = .eq
  · rw [List.find?_cons_of_pos (by simpa using h), if_pos h]
    rfl
  · rw [List.find?_cons_of_neg (by simpa using h), if_neg h]

theorem lookup_eq_none {k : κ} {l : List (κ × ν)} (h : ∀ e ∈ l, compare k e.1 ≠ .eq) :
    lookup k l = none := by
  simpa [lookup] using fun a b hab => h (a, b) hab

variable [Std.TransOrd κ]

theorem lookup_insertEntry_self (f : ν → ν → ν) (k : κ) (v : ν) {l : List (κ × ν)}
    (h : l.Pairwise fun a b => compare a.1 b.1 = .lt) :
    lookup k (insertEntry f k v l) = some ((lookup k l).elim v (f · v)) := by
  induction l with
  | nil => simp [insertEntry, lookup]
  | cons e rest ih =>
    have hrest := List.pairwise_cons.mp h
    rw [insertEntry]
    cases hk : compare k e.1 with
    | lt =>
      have hnone : lookup k (e :: rest) = none := by
        apply lookup_eq_none
        intro a ha
        rcases List.mem_cons.mp ha with rfl | ha
        · simp [hk]
        · simp [Std.TransCmp.lt_trans hk (hrest.1 a ha)]
      rw [hnone, lookup_cons]
      simp
    | eq => simp [lookup_cons, hk]
    | gt => simp [lookup_cons, hk, ih hrest.2]

theorem lookup_insertEntry_of_ne (f : ν → ν → ν) {k k' : κ} (v : ν) (hne : compare k' k ≠ .eq)
    (l : List (κ × ν)) : lookup k' (insertEntry f k v l) = lookup k' l := by
  induction l with
  | nil => simp [insertEntry, hne, lookup]
  | cons e rest ih =>
    rw [insertEntry]
    cases hk : compare k e.1 with
    | lt => exact (lookup_cons ..).trans (if_neg hne)
    | eq =>
      have he : compare k' e.1 ≠ .eq := by
        rw [← Std.TransCmp.congr_right hk]
        exact hne
      simp [lookup_cons, he]
    | gt => simp only [lookup_cons, ih]

theorem get?_insertWith_self (f : ν → ν → ν) (m : FinMap κ ν) (k : κ) (v : ν) :
    (m.insertWith f k v).get? k = some ((m.get? k).elim v (f · v)) :=
  lookup_insertEntry_self f k v m.sorted

theorem get?_insertWith_of_ne (f : ν → ν → ν) (m : FinMap κ ν) {k k' : κ} (v : ν)
    (h : compare k' k ≠ .eq) : (m.insertWith f k v).get? k' = m.get? k' :=
  lookup_insertEntry_of_ne f v h m.entries

theorem get?_insert_self (m : FinMap κ ν) (k : κ) (v : ν) : (m.insert k v).get? k = some v := by
  rw [insert, get?_insertWith_self]
  cases m.get? k <;> rfl

theorem get?_insert_of_ne (m : FinMap κ ν) {k k' : κ} (v : ν) (h : compare k' k ≠ .eq) :
    (m.insert k v).get? k' = m.get? k' :=
  get?_insertWith_of_ne _ m v h

end Lookup

/-- The map holds all keys of a list, each under a position where it stands. -/
structure Locates (m : FinMap κ Nat) (keys : List κ) : Prop where
  found : ∀ {k i}, m.get? k = some i → keys[i]? = some k
  complete : ∀ {k}, k ∈ keys → (m.get? k).isSome = true

namespace Locates

variable {m : FinMap κ Nat} {keys : List κ} {k : κ}

theorem empty : (FinMap.empty : FinMap κ Nat).Locates [] where
  found h := by simp [FinMap.empty, get?] at h
  complete h := by simp at h

theorem lt_length (h : m.Locates keys) {i : Nat} (hi : m.get? k = some i) : i < keys.length :=
  (List.getElem?_eq_some_iff.mp (h.found hi)).1

theorem get?_eq_none (h : m.Locates keys) : m.get? k = none ↔ k ∉ keys := by
  constructor
  · intro hnone hk
    have hsome := h.complete hk
    rw [hnone] at hsome
    cases hsome
  · intro hk
    cases hi : m.get? k with
    | none => rfl
    | some i => exact absurd (List.mem_of_getElem? (h.found hi)) hk

/-- A key that is appended is held under the last position, wherever it stood before. -/
theorem insert [Std.TransOrd κ] [Std.LawfulEqOrd κ] (h : m.Locates keys) (k : κ) :
    (m.insert k keys.length).Locates (keys ++ [k]) where
  found {k' i} hi := by
    by_cases hk : k' = k
    · subst hk
      rw [get?_insert_self] at hi
      obtain rfl := Option.some.inj hi
      simp
    · rw [get?_insert_of_ne _ _ (mt Std.LawfulEqCmp.eq_of_compare hk)] at hi
      rw [List.getElem?_append_left (h.lt_length hi)]
      exact h.found hi
  complete {k'} hmem := by
    by_cases hk : k' = k
    · subst hk
      simp [get?_insert_self]
    · rw [get?_insert_of_ne _ _ (mt Std.LawfulEqCmp.eq_of_compare hk)]
      exact h.complete ((List.mem_append.mp hmem).resolve_right (mt List.mem_singleton.mp hk))

variable {α : Type} {key : α → κ} {l : List α}

/-- The member of the list at the position held under its key. -/
def find? (h : m.Locates (l.map key)) (k : κ) : Option α :=
  match hk : m.get? k with
  | none => none
  | some i => some (l.get ⟨i, List.length_map key ▸ h.lt_length hk⟩)

end Locates

end FinMap

instance : AbstractDomain Unit where
  join _ _ := ()
  widen _ _ := ()
  same _ _ := true

/-- A finite set is a map without values; its join is the union. -/
abbrev FinSet (α : Type) [Ord α] := FinMap α Unit

namespace FinSet

variable {α : Type} [Ord α] [Std.TransOrd α]

def single (a : α) : FinSet α := FinMap.singleton a ()

def ofElems (l : List α) : FinSet α := l.foldl (fun s a => s.insert a ()) FinMap.empty

def elems (s : FinSet α) : List α := FinMap.keys s

end FinSet

end Lifespan
