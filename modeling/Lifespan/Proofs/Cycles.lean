import Lifespan.Proofs.FinMap
import Lifespan.Proofs.Paths

namespace Lifespan.Graph

variable {n : Nat} {g : Graph n} {h i j k u : Fin n} {l : List (Fin n)}

/-- The instructions on a path from `i` to `j`, in order and with both ends. -/
inductive Path (g : Graph n) (i : Fin n) : Fin n → List (Fin n) → Prop
  | refl : Path g i i [i]
  | tail {j k : Fin n} {l : List (Fin n)} (path : Path g i j l) (adj : g.Adj j k) :
    Path g i k (l ++ [k])

namespace Path

theorem last_mem (p : g.Path i j l) : j ∈ l := by
  cases p with
  | refl => exact List.mem_singleton_self i
  | tail => exact List.mem_append_right _ (List.mem_singleton_self j)

theorem reflTransGen (p : g.Path i j l) : Relation.ReflTransGen g.Adj i j := by
  induction p with
  | refl => exact .refl
  | tail _ adj ih => exact ih.tail adj

end Path

theorem exists_path_iff : (∃ l, g.Path i j l) ↔ Relation.ReflTransGen g.Adj i j := by
  constructor
  · rintro ⟨l, hpath⟩
    exact hpath.reflTransGen
  · intro hreach
    induction hreach with
    | refl => exact ⟨_, .refl⟩
    | tail _ adj ih =>
      obtain ⟨l, hpath⟩ := ih
      exact ⟨_, hpath.tail adj⟩

/-- The search marks what paths through unmarked instructions lead to. -/
theorem explore_iff (pending : List (Fin n)) {seen : Vector Bool n} (hj : seen.get j = false) :
    (explore g.next pending seen).get j = true ↔
      ∃ i ∈ pending, ∃ l, g.Path i j l ∧ ∀ k ∈ l, seen.get k = false := by
  constructor
  · intro hmarked
    have hfound : seen.get j = true ∨ ∃ i ∈ pending, ∃ l, g.Path i j l ∧
        ∀ k ∈ l, seen.get k = false := by
      refine explore_induction g.next (P := fun j => seen.get j = true ∨
        ∃ i ∈ pending, ∃ l, g.Path i j l ∧
        ∀ k ∈ l, seen.get k = false) pending seen (fun i hi hfound j hij => ?_) (fun i hi => ?_)
        (fun i hi => .inl hi) hmarked
      · cases hseen : seen.get j with
        | true => exact .inl rfl
        | false =>
          obtain ⟨i₀, hi₀, l, hpath, hfree⟩ :=
            hfound.resolve_left (by rw [hi]; exact Bool.false_ne_true)
          exact .inr
            ⟨i₀, hi₀, l ++ [j], hpath.tail hij, by simpa [or_imp, forall_and, hseen] using hfree⟩
      · cases hseen : seen.get i with
        | true => exact .inl rfl
        | false => exact .inr ⟨i, hi, [i], .refl, by simpa using hseen⟩
    exact hfound.resolve_left (by rw [hj]; exact Bool.false_ne_true)
  · rintro ⟨i, hi, l, hpath, hfree⟩
    clear hj
    induction hpath with
    | refl => exact explore_of_pending g.next pending seen hi
    | @tail j k l hpath adj ih =>
      have hbefore : ∀ m ∈ l, seen.get m = false := fun m hm => hfree m (List.mem_append_left _ hm)
      exact explore_closed g.next pending seen (ih hbefore) (hbefore j hpath.last_mem) adj

theorem reachable_iff : (g.reachable i).get j = true ↔ ∃ l, g.Path i j l := by
  rw [reachable, explore_iff _ (by simp)]
  simp

theorem reachableAvoiding_iff (hj : j ≠ h) :
    (g.reachableAvoiding h i).get j = true ↔ ∃ l, g.Path i j l ∧ h ∉ l := by
  have hunseen (k : Fin n) : ((Vector.replicate n false).set h true h.isLt).get k = false ↔
      k ≠ h := by
    simp [Vector.get_set, eq_comm]
  rw [reachableAvoiding, explore_iff _ ((hunseen j).mpr hj)]
  simp only [List.mem_singleton, exists_eq_left, hunseen]
  refine exists_congr fun l => and_congr_right fun _ => ?_
  exact ⟨fun hfree hmem => hfree h hmem rfl, fun hmem k hk heq => hmem (heq ▸ hk)⟩

/-- An instruction dominates those that paths from the first instruction lead to, and only
through it. -/
theorem dominated_iff {start : Fin n} (hstart : start.val = 0) :
    (g.dominated h).get u = true ↔ (∃ l, g.Path start u l) ∧ ∀ l, g.Path start u l → h ∈ l := by
  have hentry : g.entry? = some start := by
    have hpos : 0 < n := Nat.zero_lt_of_lt h.isLt
    simp [hpos, entry?, Fin.ext_iff, hstart]
  simp only [dominated, hentry, Vector.get_ofFn, Bool.and_eq_true, Bool.or_eq_true,
    beq_iff_eq, reachable_iff]
  refine and_congr_right fun _ => ?_
  by_cases hu : u = h
  · subst hu
    exact iff_of_true (.inl rfl) fun l hpath => hpath.last_mem
  · rw [Bool.not_eq_true', ← Bool.not_eq_true, reachableAvoiding_iff hu]
    simp only [hu, false_or, not_exists, not_and, not_not]

/-- The dominators are those from the first node and the components the strongly connected ones. -/
structure Answers.Correct (a : Answers n) (g : Graph n) : Prop where
  /-- A node has dominators if a path from the first node leads to it, -/
  isSome_dominators (start u : Fin n) (hstart : start.val = 0) :
    (a.dominators u).isSome = true ↔ ∃ l, g.Path start u l
  /-- and they are the nodes on all such paths. -/
  mem_dominators (start u d : Fin n) (hstart : start.val = 0) {ds : List (Fin n)}
    (hds : a.dominators u = some ds) : d ∈ ds ↔ ∀ l, g.Path start u l → d ∈ l
  /-- Every node is in one component, -/
  partition : a.components.flatten.Perm (List.finRange n)
  /-- together with the nodes that paths lead to from it and back. -/
  mem_component {c : List (Fin n)} (hc : c ∈ a.components) (i j : Fin n) (hi : i ∈ c) :
    j ∈ c ↔ (∃ l, g.Path i j l) ∧ ∃ l, g.Path j i l

namespace Answers.Correct

variable {a : Answers n} {start : Fin n}

theorem isBack_iff (ha : a.Correct g) (hstart : start.val = 0) :
    a.isBack u h = true ↔ (∃ l, g.Path start u l) ∧ ∀ l, g.Path start u l → h ∈ l := by
  rw [← ha.isSome_dominators start u hstart, isBack]
  cases hds : a.dominators u with
  | none => simp
  | some ds =>
    rw [← ha.mem_dominators start u h hstart hds]
    simp

/-- The loop heads are the targets of edges that come from where paths lead only through them. -/
theorem mem_loopHeadsBy (ha : a.Correct g) (hstart : start.val = 0) :
    h ∈ (g.loopHeadsBy a).elems ↔
      ∃ u, g.Adj u h ∧ (∃ l, g.Path start u l) ∧ ∀ l, g.Path start u l → h ∈ l := by
  have hstep : ∀ (heads : FinSet (Fin n)) (edge : Fin n × Fin n) (h : Fin n),
      h ∈ FinSet.elems (if a.isBack edge.1 edge.2 then heads.insert edge.2 () else heads) ↔
        (a.isBack edge.1 edge.2 = true ∧ h = edge.2) ∨ h ∈ heads.elems := by
    intro heads edge h
    by_cases hback : a.isBack edge.1 edge.2 = true
    · simp [hback, FinSet.mem_elems_insert]
    · simp [hback]
  have hedges : ∀ u h, (u, h) ∈ g.edges ↔ g.Adj u h := by
    intro u h
    simp [edges, Adj]
  rw [loopHeadsBy, FinSet.mem_elems_foldl hstep]
  simp only [FinSet.not_mem_elems_empty, or_false, Prod.exists, hedges]
  constructor
  · rintro ⟨u, h, hadj, hback, rfl⟩
    exact ⟨u, hadj, (ha.isBack_iff hstart).mp hback⟩
  · rintro ⟨u, hadj, hdom⟩
    exact ⟨u, h, hadj, (ha.isBack_iff hstart).mpr hdom, rfl⟩

theorem exists_component (ha : a.Correct g) (i : Fin n) : ∃ c ∈ a.components, i ∈ c :=
  List.mem_flatten.mp (ha.partition.mem_iff.mpr (List.mem_finRange i))

theorem nodup_component (ha : a.Correct g) {c : List (Fin n)} (hc : c ∈ a.components) : c.Nodup :=
  (List.nodup_flatten.mp (ha.partition.nodup_iff.mpr (List.nodup_finRange n))).1 c hc

/-- A component has a cycle through each of its nodes or through none. -/
theorem isCyclic_iff (ha : a.Correct g) {c : List (Fin n)} (hc : c ∈ a.components) (hi : i ∈ c) :
    g.isCyclic c = true ↔ Relation.TransGen g.Adj i i := by
  match c, hi with
  | [j], hi =>
    obtain rfl := List.mem_singleton.mp hi
    rw [isCyclic, List.contains_iff_mem]
    constructor
    · exact fun hadj => .single hadj
    · intro hcycle
      -- the first step stays in the component, so it is an edge from `i` to itself
      obtain ⟨k, hik, hki⟩ := Relation.TransGen.head'_iff.mp hcycle
      have hk : k ∈ [i] := (ha.mem_component hc i k hi).mpr
        ⟨⟨_, Path.refl.tail hik⟩, exists_path_iff.mpr hki⟩
      obtain rfl := List.mem_singleton.mp hk
      exact hik
  | j :: k :: rest, hi =>
    refine iff_of_true rfl ?_
    have hother : ∃ m ∈ j :: k :: rest, m ≠ i := by
      have hne : j ≠ k := fun heq => by
        have hnodup := ha.nodup_component hc
        simp [heq] at hnodup
      by_cases hj : j = i
      · exact ⟨k, by simp, fun hk => hne (hj.trans hk.symm)⟩
      · exact ⟨j, by simp, hj⟩
    obtain ⟨m, hm, hmi⟩ := hother
    obtain ⟨hto, hback⟩ := (ha.mem_component hc i m hi).mp hm
    rcases Relation.reflTransGen_iff_eq_or_transGen.mp (exists_path_iff.mp hto) with heq | hto
    · exact absurd heq hmi
    · exact hto.trans_left (exists_path_iff.mp hback)

/-- The nodes on cycles are those from which a path with at least one edge leads back. -/
theorem mem_onCycleBy (ha : a.Correct g) :
    i ∈ (g.onCycleBy a).elems ↔ Relation.TransGen g.Adj i i := by
  have hinsert : ∀ (found : FinSet (Fin n)) (j i : Fin n),
      i ∈ FinSet.elems (found.insert j ()) ↔ i = j ∨ i ∈ found.elems :=
    fun found j i => FinSet.mem_elems_insert found j i
  have hstep : ∀ (found : FinSet (Fin n)) (c : List (Fin n)) (i : Fin n),
      i ∈ FinSet.elems (if g.isCyclic c then c.foldl (fun found i => found.insert i ()) found
        else found) ↔ (g.isCyclic c = true ∧ i ∈ c) ∨ i ∈ found.elems := by
    intro found c i
    by_cases hc : g.isCyclic c = true
    · simp [hc, FinSet.mem_elems_foldl hinsert]
    · simp [hc]
  rw [onCycleBy, FinSet.mem_elems_foldl hstep]
  simp only [FinSet.not_mem_elems_empty, or_false]
  constructor
  · rintro ⟨c, hc, hcyclic, hi⟩
    exact (ha.isCyclic_iff hc hi).mp hcyclic
  · intro hcycle
    obtain ⟨c, hc, hi⟩ := ha.exists_component i
    exact ⟨c, hc, (ha.isCyclic_iff hc hi).mpr hcycle, hi⟩

end Answers.Correct

section Search

/-- Paths lead from `i` to `j` and back. -/
def Joined (g : Graph n) (i j : Fin n) : Prop := (∃ l, g.Path i j l) ∧ ∃ l, g.Path j i l

theorem joined_equivalence (g : Graph n) : Equivalence g.Joined where
  refl i := ⟨⟨_, .refl⟩, _, .refl⟩
  symm h := ⟨h.2, h.1⟩
  trans h h' := by
    simp only [Joined, exists_path_iff] at h h' ⊢
    exact ⟨h.1.trans h'.1, h'.2.trans h.2⟩

/-- The nodes that are joined with no earlier one stand for their components. -/
def IsFirst (g : Graph n) (i : Fin n) : Prop := ∀ j, g.Joined i j → i ≤ j

theorem exists_isFirst (g : Graph n) (i : Fin n) : ∃ r, g.IsFirst r ∧ g.Joined r i := by
  induction i using WellFoundedLT.induction with
  | ind i ih =>
    by_cases hi : g.IsFirst i
    · exact ⟨i, hi, g.joined_equivalence.refl i⟩
    · simp only [IsFirst, not_forall, not_le] at hi
      obtain ⟨j, hij, hlt⟩ := hi
      obtain ⟨r, hr, hrj⟩ := ih j hlt
      exact ⟨r, hr, g.joined_equivalence.trans hrj (g.joined_equivalence.symm hij)⟩

theorem components_search (g : Graph n) : ∃ firsts : List (Fin n), ∃ members : Fin n → List (Fin n),
    g.search.components = firsts.map members ∧ firsts.Nodup ∧ (∀ i, i ∈ firsts ↔ g.IsFirst i) ∧
    ∀ i, (members i).Nodup ∧ ∀ j, j ∈ members i ↔ g.Joined i j := by
  have hjoined (i j : Fin n) : (((Vector.ofFn g.reachable).get i).get j &&
      ((Vector.ofFn g.reachable).get j).get i) = true ↔ g.Joined i j := by
    simp only [Bool.and_eq_true, Vector.get_ofFn, reachable_iff, Joined]
  have hall := List.nodup_finRange n
  refine ⟨_, _, rfl, hall.filter _, fun i => ?_, fun i => ⟨hall.filter _, fun j => ?_⟩⟩
  · simp only [List.mem_filter, List.mem_finRange, true_and, List.all_eq_true, Bool.or_eq_true,
      Bool.not_eq_true', decide_eq_true_eq, forall_const, IsFirst, ← hjoined]
    exact forall_congr' fun j => by rw [← Bool.not_eq_true, imp_iff_not_or]
  · simp only [List.mem_filter, List.mem_finRange, true_and, hjoined]

theorem mem_dominators_search {start d : Fin n} (hstart : start.val = 0) {ds : List (Fin n)}
    (hds : g.search.dominators u = some ds) : d ∈ ds ↔ ∀ l, g.Path start u l → d ∈ l := by
  simp only [search, Vector.get_ofFn] at hds
  obtain ⟨hu, hds⟩ := Option.ite_none_right_eq_some.mp hds
  obtain rfl := Option.some.inj hds
  simp only [List.mem_filter, List.mem_finRange, true_and, dominated_iff hstart]
  exact and_iff_right ((dominated_iff hstart).mp hu).1

/-- What is found by searching is right. -/
theorem search_correct (g : Graph n) : g.search.Correct g := by
  obtain ⟨firsts, members, hcomponents, hfirsts, hfirst, hmembers⟩ := g.components_search
  refine ⟨fun start u hstart => ?_, fun start u d hstart ds hds => mem_dominators_search hstart hds,
    ?_, ?_⟩
  · simp only [search, Vector.get_ofFn]
    rw [Option.isSome_ite, dominated_iff hstart]
    exact and_iff_left fun l hpath => hpath.last_mem
  · rw [hcomponents]
    refine (List.perm_ext_iff_of_nodup (List.nodup_flatten.mpr ⟨?_, ?_⟩)
      (List.nodup_finRange n)).mpr fun i => ?_
    · simp only [List.mem_map]
      rintro _ ⟨i, -, rfl⟩
      exact (hmembers i).1
    · refine List.pairwise_map.mpr (hfirsts.imp_of_mem fun {r r'} hr hr' hne i hi hi' => hne ?_)
      -- a node in two components would join their first nodes
      have hrr' : g.Joined r r' := g.joined_equivalence.trans ((hmembers r).2 i |>.mp hi)
        (g.joined_equivalence.symm ((hmembers r').2 i |>.mp hi'))
      exact le_antisymm ((hfirst r).mp hr r' hrr')
        ((hfirst r').mp hr' r (g.joined_equivalence.symm hrr'))
    · obtain ⟨r, hr, hri⟩ := g.exists_isFirst i
      refine iff_of_true (List.mem_flatten.mpr ⟨members r, ?_, ?_⟩) (List.mem_finRange i)
      · exact List.mem_map_of_mem ((hfirst r).mpr hr)
      · exact ((hmembers r).2 i).mpr hri
  · intro c hc i j hi
    rw [hcomponents] at hc
    obtain ⟨r, -, rfl⟩ := List.mem_map.mp hc
    have hri := ((hmembers r).2 i).mp hi
    rw [(hmembers r).2 j]
    exact ⟨g.joined_equivalence.trans (g.joined_equivalence.symm hri),
      g.joined_equivalence.trans hri⟩

end Search

theorem isOnCycle_iff_transGen : g.isOnCycle i = true ↔ Relation.TransGen g.Adj i i :=
  (FinSet.mem_elems _ i).symm.trans g.search_correct.mem_onCycleBy

theorem transGen_iff_path :
    Relation.TransGen g.Adj i i ↔ ∃ l, g.Path i i l ∧ 1 < l.length := by
  constructor
  · intro hcycle
    obtain ⟨j, hreach, hji⟩ := Relation.TransGen.tail'_iff.mp hcycle
    obtain ⟨l, hpath⟩ := exists_path_iff.mpr hreach
    have hlen := List.length_pos_of_mem hpath.last_mem
    exact ⟨l ++ [i], hpath.tail hji, by simpa using hlen⟩
  · rintro ⟨l, hpath, hlen⟩
    cases hpath with
    | refl => exact absurd hlen (lt_irrefl 1)
    | tail hpath adj => exact .tail' hpath.reflTransGen adj

theorem isOnCycle_iff : g.isOnCycle i = true ↔ ∃ l, g.Path i i l ∧ 1 < l.length :=
  isOnCycle_iff_transGen.trans transGen_iff_path

theorem isLoopHead_iff {start : Fin n} (hstart : start.val = 0) :
    g.isLoopHead h = true ↔
      ∃ u, g.Adj u h ∧ (∃ l, g.Path start u l) ∧ ∀ l, g.Path start u l → h ∈ l :=
  (FinSet.mem_elems _ h).symm.trans (g.search_correct.mem_loopHeadsBy hstart)

/-- One search behind `i` tells whether it is on a cycle. -/
theorem isOnCycle_eq_explore (i : Fin n) :
    g.isOnCycle i = (explore g.next (g.next i) (Vector.replicate n false)).get i := by
  rw [Bool.eq_iff_iff, isOnCycle_iff_transGen, explore_iff _ (by simp),
    Relation.TransGen.head'_iff]
  refine exists_congr fun j => and_congr_right fun _ => ?_
  simp [exists_path_iff]

/-- Two searches, one past `h`, tell whether it is a loop head. -/
theorem isLoopHead_eq_any (h : Fin n) : g.isLoopHead h =
    (List.finRange n).any fun u => (g.next u).contains h && (g.dominated h).get u := by
  have hstart : (⟨0, Nat.zero_lt_of_lt h.isLt⟩ : Fin n).val = 0 := rfl
  rw [Bool.eq_iff_iff, isLoopHead_iff hstart]
  simp [dominated_iff hstart, Adj]

theorem eq_of_all {f marks : Fin n → Bool}
    (h : ((List.finRange n).all fun i => f i == marks i) = true) (i : Fin n) : f i = marks i :=
  beq_iff_eq.mp (List.all_eq_true.mp h i (List.mem_finRange i))

/-- The loop heads of a given method can be read off one list, -/
theorem contains_loopHeads_of_all {marks : Fin n → Bool}
    (hall : ((List.finRange n).all fun h => ((List.finRange n).any fun u =>
      (g.next u).contains h && (g.dominated h).get u) == marks h) = true) (h : Fin n) :
    g.loopHeads.contains h = marks h :=
  (isLoopHead_eq_any h).trans (eq_of_all hall h)

/-- and so can the instructions on its cycles. -/
theorem contains_onCycle_of_all {marks : Fin n → Bool}
    (hall : ((List.finRange n).all fun i =>
      (explore g.next (g.next i) (Vector.replicate n false)).get i == marks i) = true) (i : Fin n) :
    g.onCycle.contains i = marks i :=
  (isOnCycle_eq_explore i).trans (eq_of_all hall i)

end Lifespan.Graph
