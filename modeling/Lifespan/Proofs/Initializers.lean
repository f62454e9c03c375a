import Lifespan.Proofs.PointsTo
import Lifespan.Proofs.Resolver

namespace Lifespan

/-- Elements in the order of their keys are grouped by them. -/
theorem flatMap_filter_key {α : Type} {key : α → Nat} {l : List α}
    (hl : l.Pairwise fun a b => key a ≤ key b) (n : Nat) :
    (List.range n).flatMap (fun k => l.filter fun a => key a == k) = l.filter fun a =>
    key a < n := by
  induction n with
  | zero => simp
  | succ n ih =>
    rw [List.range_succ, List.flatMap_append, ih, List.flatMap_singleton]
    clear ih
    induction hl with
    | nil => rfl
    | @cons a l ha _ ih =>
      simp only [List.filter_cons, decide_eq_true_eq, beq_iff_eq]
      rcases Nat.lt_trichotomy (key a) n with hlt | heq | hgt
      · rw [if_pos hlt, if_neg hlt.ne, if_pos (Nat.lt_succ_of_lt hlt), List.cons_append, ih]
      · have hnone : l.filter (fun b => key b < n) = [] := by
          rw [List.filter_eq_nil_iff]
          intro b hb
          have hle := ha b hb
          simp only [decide_eq_true_eq]
          omega
        rw [hnone, List.nil_append] at ih
        rw [if_neg (by omega), if_pos heq, if_pos (by omega), hnone, List.nil_append, ih]
      · rw [if_neg (by omega), if_neg hgt.ne', if_neg (by omega), ih]

namespace Site

theorem lt_of_method {a b : Site} (h : a.method < b.method) : compare a b = .lt := by
  have hm : compare a.method b.method = .lt := Nat.compare_eq_lt.mpr h
  change (compare a.method b.method).then (compare a.index b.index) = .lt
  rw [hm]
  rfl

theorem lt_of_index {method i j : Nat} (h : i < j) :
    compare (⟨method, i⟩ : Site) ⟨method, j⟩ = .lt := by
  have hi : compare i j = .lt := Nat.compare_eq_lt.mpr h
  change (compare method method).then (compare i j) = .lt
  rw [Nat.compare_eq_eq.mpr rfl, hi]
  rfl

theorem method_le_of_lt {a b : Site} (h : compare a b = .lt) : a.method ≤ b.method := by
  by_contra hlt
  have hgt := Std.OrientedCmp.gt_of_lt (lt_of_method (Nat.lt_of_not_le hlt))
  rw [h] at hgt
  cases hgt

end Site

theorem zipIdx_pairwise_lt {α : Type} (l : List α) : l.zipIdx.Pairwise fun a b => a.2 < b.2 := by
  have h : (l.zipIdx.map Prod.snd).Pairwise (· < ·) := by
    rw [List.zipIdx_map_snd]
    exact List.pairwise_lt_range'
  exact List.pairwise_map.mp h

/-- What the scan of a class finds in the method number `id`. -/
def Method.calls (m : Method) (id : Nat) : List (Site × Call) :=
  match m.body with
  | none => []
  | some b =>
    if m.isConstructor then []
    else b.code.toList.zipIdx.filterMap fun (instr, index) =>
      match instr with
      | .call call => some (⟨id, index⟩, call)
      | _ => none

theorem Class.calls_eq_flatMap (c : Class) :
    c.calls = c.methods.zipIdx.flatMap fun (m, id) => m.calls id := rfl

theorem Method.method_of_mem_calls {m : Method} {id : Nat} {a : Site × Call} (h : a ∈ m.calls id) :
    a.1.method = id := by
  unfold Method.calls at h
  split at h
  · cases h
  · split at h
    · cases h
    · obtain ⟨⟨instr, index⟩, -, hcall⟩ := List.mem_filterMap.mp h
      dsimp only at hcall
      split at hcall
      · obtain rfl := Option.some.inj hcall
        rfl
      · cases hcall

theorem Method.calls_pairwise_lt (m : Method) (id : Nat) :
    (m.calls id).Pairwise fun a b => compare a.1 b.1 = .lt := by
  unfold Method.calls
  split
  · exact .nil
  · split
    case isTrue => exact .nil
    case isFalse b _ _ =>
      refine List.pairwise_filterMap.mpr ((zipIdx_pairwise_lt b.code.toList).imp ?_)
      rintro ⟨instr, i⟩ ⟨instr', j⟩ hij a ha a' ha'
      dsimp only at ha ha'
      split at ha
      · split at ha'
        · obtain rfl := Option.some.inj ha
          obtain rfl := Option.some.inj ha'
          exact Site.lt_of_index hij
        · cases ha'
      · cases ha

/-- The scan goes through the methods in order and through each body from its start. -/
theorem Class.calls_pairwise_lt (c : Class) :
    c.calls.Pairwise fun a b => compare a.1 b.1 = .lt := by
  rw [c.calls_eq_flatMap, List.pairwise_flatMap]
  refine ⟨fun a _ => a.1.calls_pairwise_lt a.2, (zipIdx_pairwise_lt c.methods).imp ?_⟩
  rintro ⟨m, id⟩ ⟨m', id'⟩ hlt x hx y hy
  apply Site.lt_of_method
  rw [Method.method_of_mem_calls hx, Method.method_of_mem_calls hy]
  exact hlt

namespace Resolver

variable {r r' : Resolver} {s : Settings} {oracle : Oracle} {cls : Class}
    {calls : List (Site × Call)}
  {site : Site} {c : Call}

/-- The initializers are numbered, one for each call that constructs an interval. -/
structure Numbers (s : Settings) (calls : List (Site × Call)) (r : Resolver) : Prop where
  ids : r.initializers.map Initializer.id = List.range r.initializers.length
  sites : r.initializers.map Initializer.site =
    (calls.filter fun a => s.isInitializer a.2).map Prod.fst

theorem Numbers.addCall (h : r.Numbers s calls) (hadd : (addCall s r site c).result = .ok r') :
    r'.Numbers s (calls ++ [(site, c)]) := by
  unfold Resolver.addCall at hadd
  split at hadd
  case isTrue hc =>
    obtain ⟨-, n, finish, -, node, -, -, -, -, -, rfl⟩ := addInitializer_eq_ok hadd
    constructor
    · simp [h.ids, List.range_succ]
    · simp [h.sites, hc]
  case isFalse hc =>
    have hsame : r'.initializers = r.initializers := by
      split at hadd
      · obtain ⟨x, time, -, -, rfl⟩ := addQuery_eq_ok hadd
        rfl
      · obtain rfl := Except.ok.inj hadd
        rfl
    constructor
    · rw [hsame, h.ids]
    · simp [hsame, h.sites, hc]

theorem numbers_of_ofOracle (h : (ofOracle cls s oracle).result = .ok r) : r.Numbers s cls.calls :=
  ofOracle_induction (P := fun calls r => r.Numbers s calls) ⟨rfl, rfl⟩
    (fun _ _ _ _ _ hr hadd => hr.addCall hadd) h

theorem Numbers.id_eq (h : r.Numbers s calls) {k : Nat} {i : Initializer}
    (hi : r.initializers[k]? = some i) :
    i.id = k := by
  have hid : (r.initializers.map Initializer.id)[k]? = some i.id := by
    rw [List.getElem?_map, hi]; rfl
  rw [h.ids] at hid
  obtain ⟨hlt, hget⟩ := List.getElem?_eq_some_iff.mp hid
  rw [List.getElem_range] at hget
  exact hget.symm

theorem Numbers.sites_pairwise_lt (h : r.Numbers s cls.calls) :
    (r.initializers.map Initializer.site).Pairwise fun a b => compare a b = .lt := by
  rw [h.sites, List.pairwise_map]
  exact cls.calls_pairwise_lt.filter _

theorem Numbers.exists_site_iff (h : r.Numbers s calls) :
    (∃ i ∈ r.initializers, i.site = site) ↔ ∃ c, (site, c) ∈ calls ∧ s.isInitializer c = true := by
  rw [← List.mem_map, h.sites, List.mem_map]
  constructor
  · rintro ⟨a, ha, rfl⟩
    exact ⟨a.2, List.mem_filter.mp ha⟩
  · rintro ⟨c, hc⟩
    exact ⟨(site, c), List.mem_filter.mpr hc, rfl⟩

theorem mem_initializersOf {i : Initializer} {method : Nat} :
    i ∈ r.initializersOf method ↔ i ∈ r.initializers ∧ i.site.method = method := by
  simp [initializersOf]

/-- The groups of the methods, in order, are the whole list. -/
theorem Numbers.flatMap_initializersOf (h : r.Numbers s cls.calls) :
    (List.range cls.methods.length).flatMap r.initializersOf = r.initializers := by
  have hsorted : r.initializers.Pairwise fun i j => i.site.method ≤ j.site.method :=
    (List.pairwise_map.mp h.sites_pairwise_lt).imp Site.method_le_of_lt
  have hbound : ∀ i ∈ r.initializers, i.site.method < cls.methods.length := by
    intro i hi
    obtain ⟨c, hc, -⟩ := h.exists_site_iff.mp ⟨i, hi, rfl⟩
    obtain ⟨m, b, hm, -⟩ := Class.mem_calls.mp hc
    exact (List.getElem?_eq_some_iff.mp hm).1
  unfold initializersOf
  rw [flatMap_filter_key hsorted, List.filter_eq_self]
  exact fun i hi => decide_eq_true (hbound i hi)

theorem Numbers.nodup_sites (h : r.Numbers s cls.calls) :
    (r.initializers.map Initializer.site).Nodup := by
  refine h.sites_pairwise_lt.imp ?_
  rintro a _ hlt rfl
  have hself : compare a a = .eq := Std.ReflCmp.compare_self
  rw [hself] at hlt
  cases hlt

theorem Numbers.initializerAt_eq_some (h : r.Numbers s cls.calls) {i : Initializer} :
    r.initializerAt site = some i ↔ i ∈ r.initializers ∧ i.site = site :=
  r.sites.find?_eq_some h.nodup_sites

theorem Registers.initializerOf_eq_some (h : r.Registers s oracle calls)
    {i : Initializer} {node : Site} :
    r.initializerOf node = some i ↔ i ∈ r.initializers ∧ i.node = node :=
  r.nodes.find?_eq_some h.nodup_nodes

/-- Numbers are held under the keys of the initializers that have them. -/
theorem get?_eq_some_iff {m : FinMap Site Nat} {key : Initializer → Site}
    (h : m.Locates (r.initializers.map key)) (hn : (r.initializers.map key).Nodup) {k : Nat} :
    m.get? site = some k ↔ ∃ i, r.initializers[k]? = some i ∧ key i = site := by
  rw [h.get?_eq_some hn, List.getElem?_map, Option.map_eq_some_iff]

theorem Registers.mem_resolve_iff (h : r.Registers s oracle calls) {i : Initializer} {x : Local} :
    i ∈ r.resolve site x ↔ i ∈ r.initializers ∧ i.node ∈ (oracle site x).elems := by
  simp only [resolve, List.mem_filterMap, h.oracle_eq, h.initializerOf_eq_some]
  constructor
  · rintro ⟨node, hnode, hi, rfl⟩
    exact ⟨hi, hnode⟩
  · rintro ⟨hi, hnode⟩
    exact ⟨i.node, hnode, hi, rfl⟩

theorem Registers.resolve_pairwise_lt (h : r.Registers s oracle calls) (site : Site) (x : Local) :
    (r.resolve site x).Pairwise fun i j => compare i.node j.node = .lt := by
  have helems : (r.oracle site x).elems.Pairwise fun a b => compare a b = .lt :=
    List.pairwise_map.mpr (r.oracle site x).sorted
  refine List.pairwise_filterMap.mpr (helems.imp ?_)
  intro a b hab i hi j hj
  obtain ⟨-, rfl⟩ := h.initializerOf_eq_some.mp hi
  obtain ⟨-, rfl⟩ := h.initializerOf_eq_some.mp hj
  exact hab

end Resolver

theorem Settings.isInitializer_iff {s : Settings} {c : Call} : s.isInitializer c = true ↔
    c.kind = .special ∧ c.method = constructorName ∧ c.cls = s.intervalClass := by
  simp [Settings.isInitializer, and_assoc]

/-- A method other than a constructor has the call at the site. -/
def Class.CallsAt (c : Class) (site : Site) (call : Call) : Prop :=
  ∃ m b, c.methods[site.method]? = some m ∧ m.body = some b ∧ m.isConstructor = false ∧
    b.code.toList[site.index]? = some (.call call)

/-- The indexes of a resolver agree, for any oracle for which it could be built. Initializers are
numbered from zero in the order of their sites, which are all the sites where an interval is
constructed outside of constructors. Each has an allocation of its own, the only one that its
receiver denotes there. The indexes by site and by allocation hold the numbers of the initializers
under their sites and allocations, and hold nothing else. Looking up a site, a method or a reference
gives the initializers with that site, of that method, or whose allocation the oracle has for the
reference; these come in the order of the allocations. -/
theorem Resolver.ofOracle_indexes (c : Class) (s : Settings) (oracle : Oracle) (r : Resolver)
    (h : (ofOracle c s oracle).result = .ok r) :
    (∀ (k : Nat) (i : Initializer), r.initializers[k]? = some i → i.id = k) ∧
    (r.initializers.map Initializer.site).Pairwise (fun a b => compare a b = .lt) ∧
    (∀ site, (∃ i ∈ r.initializers, i.site = site) ↔ ∃ call, c.CallsAt site call ∧
      call.kind = .special ∧ call.method = constructorName ∧ call.cls = s.intervalClass) ∧
    (r.initializers.map Initializer.node).Nodup ∧
    (∀ i ∈ r.initializers, ∃ call x, c.CallsAt i.site call ∧ call.receiver = some x ∧
      (oracle i.site x).elems = [i.node]) ∧
    (∀ site k, r.bySite.get? site = some k ↔
      ∃ i, r.initializers[k]? = some i ∧ i.site = site) ∧
    (∀ node k, r.byNode.get? node = some k ↔
      ∃ i, r.initializers[k]? = some i ∧ i.node = node) ∧
    (∀ site i, r.initializerAt site = some i ↔ i ∈ r.initializers ∧ i.site = site) ∧
    (∀ method i, i ∈ r.initializersOf method ↔ i ∈ r.initializers ∧ i.site.method = method) ∧
    (List.range c.methods.length).flatMap r.initializersOf = r.initializers ∧
    ∀ site x,
      (∀ i, i ∈ r.resolve site x ↔ i ∈ r.initializers ∧ i.node ∈ (oracle site x).elems) ∧
      (r.resolve site x).Pairwise fun i j => compare i.node j.node = .lt := by
  have hreg := registers_of_ofOracle h
  have hnum := numbers_of_ofOracle h
  refine ⟨fun k i => hnum.id_eq, hnum.sites_pairwise_lt, fun site => ?_, hreg.nodup_nodes,
    fun i hi => ?_, fun site k => get?_eq_some_iff r.sites hnum.nodup_sites,
    fun node k => get?_eq_some_iff r.nodes hreg.nodup_nodes,
    fun site i => hnum.initializerAt_eq_some, fun method i => mem_initializersOf,
    hnum.flatMap_initializersOf, fun site x =>
      ⟨fun i => hreg.mem_resolve_iff, hreg.resolve_pairwise_lt site x⟩⟩
  · simp only [hnum.exists_site_iff, Class.mem_calls, Settings.isInitializer_iff]
    rfl
  · obtain ⟨call, hcall, -, x, -, -, hx, hnode⟩ := hreg.initializer i hi
    exact ⟨call, x, Class.mem_calls.mp hcall, hx, hnode⟩

namespace Resolver

/-- A constructor that makes an interval, a method without a body, and two methods with
three intervals. -/
def relayClass : Class :=
  let o : Local := ⟨"o", .object "Interval"⟩
  let p : Local := ⟨"p", .object "Interval"⟩
  let make (x : Local) (first last : Int) : Call :=
    ⟨.special, "Interval", "<init>", some x, [.int first, .int last]⟩
  ⟨"Relay", [
    ⟨"<init>", [],
      some ⟨3, #v[.assign (.var o) (.new "Interval"), .call (make o 0 1), .returnVoid],
        by decide, rfl⟩⟩,
    ⟨"one", [], some ⟨3, #v[.assign (.var o) (.new "Interval"), .call (make o 0 4), .returnVoid],
      by decide, rfl⟩⟩,
    ⟨"none", [], none⟩,
    ⟨"two", [], some ⟨6, #v[.assign (.var o) (.new "Interval"), .assign (.var p) (.new "Interval"),
      .call (make p 2 3), .call (make o 1 9),
      .call ⟨.virtual, "Interval", "query", some p, [.int 3]⟩, .returnVoid],
      by decide, rfl⟩⟩]⟩

/-- Objects are told apart where they are constructed only; the query may be about any of four. -/
def relayOracle : Oracle := fun site x =>
  if site.index = 4 then FinSet.ofElems [⟨3, 1⟩, ⟨0, 0⟩, ⟨3, 0⟩, ⟨1, 0⟩]
  else FinSet.single ⟨site.method, if x.name = "o" then 0 else 1⟩

def relayResolver : Resolver :=
  (start relayOracle).push ⟨1, 1⟩ ⟨1, 0⟩ 0 (.int 4)
    |>.push ⟨3, 2⟩ ⟨3, 1⟩ 2 (.int 3)
    |>.push ⟨3, 3⟩ ⟨3, 0⟩ 1 (.int 9)
    |>.ask ⟨⟨3, 4⟩, ⟨"p", .object "Interval"⟩, .int 3⟩

/-- Sites and allocations are in different orders here, and one allocation has no initializer. -/
theorem ofOracle_indexes_relay :
    (ofOracle relayClass {} relayOracle).result = .ok relayResolver ∧
    (relayResolver.resolve ⟨3, 4⟩ ⟨"p", .object "Interval"⟩).map Initializer.id = [0, 2, 1] ∧
    (relayResolver.resolve ⟨3, 4⟩ ⟨"p", .object "Interval"⟩).Pairwise
      (fun i j => compare i.node j.node = .lt) ∧
    (List.range 4).flatMap relayResolver.initializersOf = relayResolver.initializers := by
  have hr : (ofOracle relayClass {} relayOracle).result = .ok relayResolver := rfl
  obtain ⟨-, -, -, -, -, -, -, -, -, hgroups, hresolve⟩ :=
    ofOracle_indexes relayClass {} relayOracle relayResolver hr
  exact ⟨hr, by decide +kernel, (hresolve _ _).2, hgroups⟩

end Resolver

end Lifespan
