import Lifespan.Proofs.FinMap
import Mathlib.Data.Finset.Option
import Mathlib.Data.Set.Card
import Mathlib.Order.Interval.Finset.Nat

namespace Lifespan

/-- Joining is commutative, associative and idempotent. -/
structure JoinLaws (D : Type) [AbstractDomain D] : Prop where
  comm : Std.Commutative (AbstractDomain.join : D → D → D)
  assoc : Std.Associative (AbstractDomain.join : D → D → D)
  idem : Std.IdempotentOp (AbstractDomain.join : D → D → D)

/-- The order in which one value is below another if joining it adds nothing. -/
abbrev JoinLaws.semilattice {D : Type} [AbstractDomain D] (h : JoinLaws D) : SemilatticeSup D :=
  letI : Max D := ⟨AbstractDomain.join⟩
  SemilatticeSup.mk' h.comm.comm h.assoc.assoc h.idem.idempotent

/-- A quantity that never grows shrinks at most as often as it is large. -/
theorem encard_le_of_antitone {f : Nat → Nat} {s : Set Nat} (hf : Antitone f)
    (hs : ∀ k ∈ s, f (k + 1) < f k) :
    s.encard ≤ f 0 := by
  have hmaps : Set.MapsTo f s (Finset.Icc 1 (f 0)) := by
    intro k hk
    have hlt := hs k hk
    have hle := hf (Nat.zero_le k)
    rw [Finset.mem_coe, Finset.mem_Icc]
    omega
  have hstrict : StrictAntiOn f s := fun k hk l _ hkl => (hf hkl).trans_lt (hs k hk)
  calc s.encard ≤ (Finset.Icc 1 (f 0) : Set Nat).encard :=
    Set.encard_le_encard_of_injOn hmaps hstrict.injOn
    _ = f 0 := by rw [Set.encard_coe_eq_coe_finsetCard, Nat.card_Icc, Nat.add_sub_cancel]

theorem joinLaws_unit : JoinLaws Unit := ⟨⟨fun _ _ => rfl⟩, ⟨fun _ _ _ => rfl⟩, ⟨fun _ => rfl⟩⟩

namespace FinMap

variable {κ ν : Type} [Ord κ] [Std.TransOrd κ] [Std.LawfulEqOrd κ] [AbstractDomain ν]
    {a b c : FinMap κ ν} {k : κ}

/-- Every key of `a` is one of `b`, and its value in `a` adds nothing to the one in `b`. -/
def Below (a b : FinMap κ ν) : Prop :=
  ∀ k x, a.get? k = some x → ∃ y, b.get? k = some y ∧ AbstractDomain.join x y = y

/-- A missing key is strictly below one that is there, whatever its value is. -/
theorem below_insert (h : JoinLaws ν) (x : ν) (hk : a.get? k = none) :
    a.Below (a.insert k x) ∧ ¬ (a.insert k x).Below a := by
  constructor
  · intro l y hy
    have hne : compare l k ≠ .eq := by
      intro heq
      rw [Std.LawfulEqCmp.eq_of_compare heq, hk] at hy
      cases hy
    rw [get?_insert_of_ne a x hne]
    exact ⟨y, hy, h.idem.idempotent y⟩
  · intro hbelow
    obtain ⟨y, hy, -⟩ := hbelow k x (get?_insert_self a k x)
    rw [hk] at hy
    cases hy

variable [DecidableEq κ] [DecidableEq ν]

theorem get?_join (a b : FinMap κ ν) (k : κ) :
    (AbstractDomain.join a b).get? k = Option.merge AbstractDomain.join (a.get? k) (b.get? k) := by
  change (merge AbstractDomain.join a b).get? k = _
  rw [get?_merge]
  cases a.get? k <;> cases b.get? k <;> rfl

theorem joinLaws (h : JoinLaws ν) : JoinLaws (FinMap κ ν) := by
  obtain ⟨hcomm, hassoc, hidem⟩ := h
  refine ⟨⟨fun a b => ?_⟩, ⟨fun a b c => ?_⟩, ⟨fun a => ?_⟩⟩
  · apply ext_get?
    intro k
    simp only [get?_join]
    exact Std.Commutative.comm _ _
  · apply ext_get?
    intro k
    simp only [get?_join]
    exact Std.Associative.assoc _ _ _
  · apply ext_get?
    intro k
    simp only [get?_join]
    exact Std.IdempotentOp.idempotent _

theorem empty_join (a : FinMap κ ν) : AbstractDomain.join empty a = a := by
  apply ext_get?
  intro k
  rw [get?_join]
  exact Option.merge_none_left

theorem below_iff : a.Below b ↔ AbstractDomain.join a b = b := by
  constructor
  · intro h
    apply ext_get?
    intro k
    rw [get?_join]
    cases hx : a.get? k with
    | none => exact Option.merge_none_left
    | some x =>
      obtain ⟨y, hy, hxy⟩ := h k x hx
      rw [hy]
      exact congrArg some hxy
  · intro h k x hx
    have hk := get?_join a b k
    rw [h, hx] at hk
    cases hy : b.get? k with
    | none =>
      rw [hy] at hk
      cases hk
    | some y =>
      rw [hy] at hk
      exact ⟨y, rfl, (Option.some.inj hk).symm⟩

theorem isPartialOrder_below (h : JoinLaws ν) : IsPartialOrder (FinMap κ ν) Below := by
  have hrel : (Below : FinMap κ ν → FinMap κ ν → Prop) = (joinLaws h).semilattice.le := by
    funext a b
    exact propext below_iff
  rw [hrel]
  let _ := (joinLaws (κ := κ) h).semilattice
  infer_instance

theorem join_below_iff (h : JoinLaws ν) : (AbstractDomain.join a b).Below c ↔
    a.Below c ∧ b.Below c := by
  simp only [below_iff]
  exact @sup_le_iff _ (joinLaws h).semilattice a b c

end FinMap

namespace FinSet

variable {α : Type} [Ord α] [Std.TransOrd α] [Std.LawfulEqOrd α] [DecidableEq α]

theorem mem_elems_join {s t : FinSet α} {x : α} :
    x ∈ (AbstractDomain.join s t).elems ↔ x ∈ s.elems ∨ x ∈ t.elems :=
  mem_elems_merge _ s t x

/-- A set is below another if its elements are among those of the other. -/
theorem join_eq_right_iff {s t : FinSet α} : AbstractDomain.join s t = t ↔
    ∀ x ∈ s.elems, x ∈ t.elems := by
  constructor
  · intro h x hx
    rw [← h, mem_elems_join]
    exact .inl hx
  · intro h
    apply ext_elems
    intro x
    rw [mem_elems_join]
    exact ⟨fun hx => hx.elim (h x) id, .inr⟩

end FinSet

namespace FinMap

variable {κ α : Type} [Ord κ] [Std.LawfulEqOrd κ] [DecidableEq κ] [Ord α] [DecidableEq α]
  {m : FinMap κ (FinSet α)} {k : κ} {o : Option α} {K : Finset κ} {E : Finset α}

/-- The keys, and for each of them the elements of its set. -/
def facts (m : FinMap κ (FinSet α)) : Finset (κ × Option α) :=
  (m.keys.flatMap fun k => (k, none) :: ((m.get? k).getD empty).elems.map fun x =>
    (k, some x)).toFinset

theorem mem_facts : (k, o) ∈ m.facts ↔ ∃ s, m.get? k = some s ∧ ∀ x ∈ o, x ∈ s.elems := by
  have hkey : (k, o) ∈ m.facts ↔ k ∈ m.keys ∧ ∀ x ∈ o, x ∈ ((m.get? k).getD empty).elems := by
    cases o <;> simp [facts]
  rw [hkey, mem_keys]
  cases m.get? k <;> simp

/-- All keys come from `K` and all elements from `E`. -/
def Over (m : FinMap κ (FinSet α)) (K : Finset κ) (E : Finset α) : Prop :=
  ∀ k s, m.get? k = some s → k ∈ K ∧ ∀ x ∈ s.elems, x ∈ E

theorem Over.facts_subset (h : m.Over K E) : m.facts ⊆ K ×ˢ Finset.insertNone E := by
  rintro ⟨k, o⟩ hk
  obtain ⟨s, hs, ho⟩ := mem_facts.mp hk
  obtain ⟨hkey, helems⟩ := h k s hs
  rw [Finset.mem_product, Finset.mem_insertNone]
  exact ⟨hkey, fun x hx => helems x (ho x hx)⟩

theorem exists_of_facts_subset {a b : FinMap κ (FinSet α)} (h : a.facts ⊆ b.facts) {s : FinSet α}
    (hs : a.get? k = some s) : ∃ t, b.get? k = some t ∧ ∀ x ∈ s.elems, x ∈ t.elems := by
  obtain ⟨t, ht, -⟩ := mem_facts.mp (h (mem_facts (o := none).mpr ⟨s, hs, by simp⟩))
  refine ⟨t, ht, fun x hx => ?_⟩
  obtain ⟨t', ht', hx'⟩ := mem_facts.mp (h (mem_facts (o := some x).mpr ⟨s, hs, by simpa using hx⟩))
  obtain rfl : t = t' := Option.some.inj (ht.symm.trans ht')
  exact hx' x rfl

variable [Std.TransOrd κ] [Std.TransOrd α] [Std.LawfulEqOrd α]

/-- A key that is bound to nothing differs from a missing one also in its facts. -/
theorem facts_injective : Function.Injective (facts : FinMap κ (FinSet α) → _) := by
  intro a b h
  apply ext_get?
  intro k
  cases ha : a.get? k with
  | none =>
    cases hb : b.get? k with
    | none => rfl
    | some t =>
      obtain ⟨s, hs, -⟩ := exists_of_facts_subset h.superset hb
      rw [ha] at hs
      cases hs
  | some s =>
    obtain ⟨t, ht, hst⟩ := exists_of_facts_subset h.subset ha
    obtain ⟨s', hs', hts⟩ := exists_of_facts_subset h.superset ht
    obtain rfl : s = s' := Option.some.inj (ha.symm.trans hs')
    rw [ht, FinSet.ext_elems fun x => ⟨hst x, hts x⟩]

theorem facts_join (a b : FinMap κ (FinSet α)) :
    (AbstractDomain.join a b).facts = a.facts ∪ b.facts := by
  ext ⟨k, o⟩
  rw [Finset.mem_union, mem_facts, mem_facts, mem_facts, get?_join]
  cases a.get? k with
  | none => simp
  | some s =>
    cases b.get? k with
    | none => simp
    | some t => cases o <;> simp [Option.merge, FinSet.mem_elems_join]

/-- Each map of `a` comes from the one before by a join or a widening with one of `b`. -/
def Chain (a b : Nat → FinMap κ (FinSet α)) : Prop :=
  ∀ i, a (i + 1) = AbstractDomain.join (a i) (b i) ∨ a (i + 1) = AbstractDomain.widen (a i) (b i)

namespace Chain

variable {a b : Nat → FinMap κ (FinSet α)}

theorem facts_succ (h : Chain a b) (i : Nat) : (a (i + 1)).facts = (a i).facts ∪ (b i).facts := by
  have hjoin : a (i + 1) = AbstractDomain.join (a i) (b i) := (h i).elim id id
  rw [hjoin, facts_join]

theorem facts_subset_succ (h : Chain a b) (i : Nat) : (a i).facts ⊆ (a (i + 1)).facts := by
  rw [h.facts_succ]
  exact Finset.subset_union_left

theorem card_facts_le (h : Chain a b) (ha : (a 0).Over K E) (hb : ∀ i, (b i).Over K E) (i : Nat) :
    (a i).facts.card ≤ K.card * (E.card + 1) := by
  have hall : (a i).facts ⊆ K ×ˢ Finset.insertNone E := by
    induction i with
    | zero => exact ha.facts_subset
    | succ i ih =>
      rw [h.facts_succ]
      exact Finset.union_subset ih (hb i).facts_subset
  calc (a i).facts.card ≤ (K ×ˢ Finset.insertNone E).card := Finset.card_le_card hall
    _ = K.card * (E.card + 1) := by rw [Finset.card_product, Finset.card_insertNone]

/-- Each change adds a fact, and there are no more facts than keys and pairs of a key and
an element. -/
theorem encard_changes_le (h : Chain a b) (ha : (a 0).Over K E) (hb : ∀ i, (b i).Over K E) :
    {i | a (i + 1) ≠ a i}.encard ≤ K.card * (E.card + 1) := by
  have hanti : Antitone fun i => K.card * (E.card + 1) - (a i).facts.card :=
    antitone_nat_of_succ_le fun i =>
      Nat.sub_le_sub_left (Finset.card_le_card (h.facts_subset_succ i)) _
  refine (encard_le_of_antitone hanti fun i hi => ?_).trans ?_
  · have hne : (a i).facts ≠ (a (i + 1)).facts := fun heq => hi (facts_injective heq).symm
    have hlt := Finset.card_lt_card ((h.facts_subset_succ i).ssubset_of_ne hne)
    have hle := h.card_facts_le ha hb (i + 1)
    omega
  · exact_mod_cast Nat.sub_le _ _

end Chain

/-- Joins of maps have the laws that joins of their values have, the empty map is neutral, and the
join is the least map above both in the order in which a missing key lies strictly below every
value. Sets are values of this kind, ordered by inclusion. Maps of sets are widened by joining them,
and a chain of joins and widenings over finitely many keys and elements changes at most once for
each key and once for each key and element. -/
theorem join_semilattice {ν : Type} [DecidableEq ν] [AbstractDomain ν] (h : JoinLaws ν) :
    JoinLaws (FinMap κ ν) ∧
    (∀ a : FinMap κ ν, AbstractDomain.join empty a = a ∧ AbstractDomain.join a empty = a) ∧
    IsPartialOrder (FinMap κ ν) Below ∧
    (∀ a b c : FinMap κ ν, (AbstractDomain.join a b).Below c ↔ a.Below c ∧ b.Below c) ∧
    (∀ (a : FinMap κ ν) (k : κ) (x : ν), a.get? k = none → a.Below (a.insert k x) ∧
      ¬ (a.insert k x).Below a) ∧
    JoinLaws (FinSet α) ∧
    (∀ s t : FinSet α, AbstractDomain.join s t = t ↔ ∀ x ∈ s.elems, x ∈ t.elems) ∧
    (∀ a b : FinMap κ (FinSet α), AbstractDomain.widen a b = AbstractDomain.join a b) ∧
    ∀ (K : Finset κ) (E : Finset α) (a b : Nat → FinMap κ (FinSet α)), Chain a b → (a 0).Over K E →
      (∀ i, (b i).Over K E) → {i | a (i + 1) ≠ a i}.encard ≤ K.card * (E.card + 1) :=
  ⟨joinLaws h, fun a => ⟨empty_join a, rfl⟩, isPartialOrder_below h, fun _ _ _ => join_below_iff h,
    fun _ _ x hk => below_insert h x hk, joinLaws joinLaws_unit, fun _ _ =>
      FinSet.join_eq_right_iff,
    fun _ _ => rfl, fun _ _ _ _ hchain ha hb => hchain.encard_changes_le ha hb⟩

/-- First a name without elements, then an element for it. -/
def stage (i : Nat) : FinMap String (FinSet Nat) :=
  singleton "x" (if i = 0 then empty else FinSet.single 7)

def gathered (i : Nat) : FinMap String (FinSet Nat) :=
  (List.range i).foldl (fun m j => AbstractDomain.join m (stage j)) empty

theorem chain_gathered : Chain gathered stage := by
  intro i
  rw [gathered, List.range_succ, List.foldl_append]
  exact .inl rfl

theorem over_stage (i : Nat) : (stage i).Over {"x"} {7} := by
  intro k s hs
  by_cases hk : compare k "x" = .eq
  · obtain rfl : k = "x" := Std.LawfulEqCmp.eq_of_compare hk
    rw [stage, singleton, get?_insert_self] at hs
    obtain rfl := Option.some.inj hs
    refine ⟨Finset.mem_singleton_self _, fun x hx => ?_⟩
    split at hx
    · exact absurd hx (FinSet.not_mem_elems_empty x)
    · exact Finset.mem_singleton.mpr ((FinSet.mem_elems_single 7 x).mp hx)
  · rw [stage, singleton, get?_insert_of_ne _ _ hk] at hs
    cases hs

/-- One key and one element allow two changes, and both of them happen. -/
theorem join_semilattice_gathered :
    JoinLaws (FinSet Nat) ∧ JoinLaws (FinMap String (FinSet Nat)) ∧ Chain gathered stage ∧
    {i | gathered (i + 1) ≠ gathered i}.encard ≤ 2 ∧ gathered 1 ≠ gathered 0 ∧
    gathered 2 ≠ gathered 1 := by
  have hsets : JoinLaws (FinSet Nat) := joinLaws joinLaws_unit
  obtain ⟨hmaps, -, -, -, -, -, -, -, hchain⟩ := join_semilattice (κ := String) (α := Nat) hsets
  have hempty : (gathered 0).Over {"x"} {7} := by
    intro k s hs
    cases hs
  have hle := hchain {"x"} {7} gathered stage chain_gathered hempty over_stage
  exact ⟨hsets, hmaps, chain_gathered, hle, by decide +kernel, by decide +kernel⟩

end FinMap

end Lifespan
