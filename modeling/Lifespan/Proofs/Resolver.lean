import Lifespan.Proofs.Execution
import Lifespan.Proofs.FinMap
import Lifespan.Proofs.Logged
import Mathlib.Data.List.Nodup

namespace Lifespan

/-- Where keys are distinct, an element is found by its own. -/
theorem find?_key_eq_some {α β : Type} [BEq β] [LawfulBEq β] {key : α → β} {l : List α}
    (hn : (l.map key).Nodup) {a : α} (ha : a ∈ l) : l.find? (fun x => key x == key a) = some a := by
  cases hfind : l.find? (fun x => key x == key a) with
  | none => exact absurd (List.find?_eq_none.mp hfind a ha) (by simp)
  | some x =>
    have hkey : key x = key a := by simpa using List.find?_some hfind
    rw [List.inj_on_of_nodup_map hn (List.mem_of_find?_eq_some hfind) ha hkey]

namespace Class

/-- The calls of a class are those of the code of its methods, constructors apart. -/
theorem mem_calls {c : Class} {site : Site} {call : Call} :
    (site, call) ∈ c.calls ↔ ∃ m b, c.methods[site.method]? = some m ∧ m.body = some b ∧
      m.isConstructor = false ∧ b.code.toList[site.index]? = some (.call call) := by
  unfold calls
  rw [List.mem_flatMap]
  constructor
  · rintro ⟨⟨m, id⟩, hm, h⟩
    rw [List.mem_zipIdx_iff_getElem?] at hm
    dsimp only at h
    cases hb : m.body with
    | none =>
      rw [hb] at h
      cases h
    | some b =>
      rw [hb] at h
      dsimp only at h
      split at h
      case isTrue => cases h
      case isFalse hcons =>
        obtain ⟨⟨instr, index⟩, hi, hcall⟩ := List.mem_filterMap.mp h
        rw [List.mem_zipIdx_iff_getElem?] at hi
        dsimp only at hcall
        split at hcall
        case h_1 call' =>
          obtain ⟨rfl, rfl⟩ := Prod.mk.inj (Option.some.inj hcall)
          exact ⟨m, b, hm, hb, by simpa using hcons, hi⟩
        case h_2 => cases hcall
  · rintro ⟨m, b, hm, hb, hcons, hi⟩
    refine ⟨(m, site.method), List.mem_zipIdx_iff_getElem?.mpr hm, ?_⟩
    dsimp only
    rw [hb]
    dsimp only
    rw [if_neg (by simp [hcons])]
    exact List.mem_filterMap.mpr
      ⟨(.call call, site.index), List.mem_zipIdx_iff_getElem?.mpr hi, rfl⟩

theorem eq_of_mem_calls {c : Class} {site : Site} {call call' : Call} (h : (site, call) ∈ c.calls)
    (h' : (site, call') ∈ c.calls) : call = call' := by
  obtain ⟨m, b, hm, hb, -, hi⟩ := mem_calls.mp h
  obtain ⟨m', b', hm', hb', -, hi'⟩ := mem_calls.mp h'
  rw [hm] at hm'
  obtain rfl := Option.some.inj hm'
  rw [hb] at hb'
  obtain rfl := Option.some.inj hb'
  rw [hi] at hi'
  cases hi'
  rfl

end Class

namespace Resolver

variable {r r' : Resolver} {s : Settings} {site : Site} {c : Call}

theorem receiverOf_eq_ok {x : Local} (h : receiverOf site c = .ok x) : c.receiver = some x := by
  unfold receiverOf at h
  cases hy : c.receiver with
  | none =>
    rw [hy] at h
    cases h
  | some y =>
    rw [hy] at h
    rw [Except.ok.inj h]

theorem allocation_eq_ok {x : Local} {node : Site} (h : r.allocation site x = .ok node) :
    (r.oracle site x).elems = [node] ∧ r.initializerOf node = none := by
  unfold allocation at h
  split at h
  case h_1 n hn =>
    cases hnone : r.initializerOf n with
    | none =>
      rw [hnone] at h
      obtain rfl := Except.ok.inj h
      exact ⟨hn, hnone⟩
    | some earlier =>
      rw [hnone] at h
      cases h
  case h_2 => cases h

@[simp]
theorem initializers_push (node : Site) (n : Int) (finish : Expr) :
    (r.push site node n finish).initializers =
      r.initializers ++ [⟨r.initializers.length, site, node, n, finish⟩] := rfl

/-- A query is kept with the others of its method. -/
theorem mem_queries {q : Query} : q ∈ r.queries ↔ q ∈ r.queriesOf q.site.method := by
  simp only [queries, List.mem_flatMap, Prod.exists, queriesOf, ← FinMap.get?_eq_some]
  constructor
  · rintro ⟨method, qs, hget, hq⟩
    have hmethod := r.grouped method q (by simpa [hget] using hq)
    rw [hmethod, hget]
    exact hq
  · intro hq
    cases hget : r.queriesBy.get? q.site.method with
    | none => simp [hget] at hq
    | some qs => exact ⟨_, qs, hget, by simpa [hget] using hq⟩

theorem mem_queriesOf {q : Query} {method : Nat} :
    q ∈ r.queriesOf method ↔ q ∈ r.queries ∧ q.site.method = method := by
  constructor
  · intro hq
    obtain rfl := r.grouped method q hq
    exact ⟨mem_queries.mpr hq, rfl⟩
  · rintro ⟨hq, rfl⟩
    exact mem_queries.mp hq

@[simp]
theorem mem_queries_ask {q q' : Query} : q' ∈ (r.ask q).queries ↔ q' ∈ r.queries ∨ q' = q := by
  have hof : (r.ask q).queriesOf q'.site.method =
      r.queriesOf q'.site.method ++ if q'.site.method = q.site.method then [q] else [] :=
    get?_ask r.queriesBy q _
  rw [mem_queries, hof, List.mem_append, ← mem_queries]
  refine or_congr_right ?_
  split
  case isTrue => exact List.mem_singleton
  case isFalse h =>
    refine iff_of_false List.not_mem_nil ?_
    rintro rfl
    exact h rfl

theorem addInitializer_eq_ok (h : (r.addInitializer site c).result = .ok r') :
    ∃ start n finish x node, c.args = [start, finish] ∧ start.int? = some n ∧ c.receiver = some x ∧
      (r.oracle site x).elems = [node] ∧ r.initializerOf node = none ∧
      r' = r.push site node n finish := by
  unfold addInitializer at h
  split at h
  case h_1 start finish hargs =>
    cases hn : start.int? with
    | none =>
      rw [hn] at h
      cases h
    | some n =>
      rw [hn] at h
      obtain ⟨x, hx, h⟩ := Logged.result_bind_ok.mp h
      obtain ⟨node, hnode, h⟩ := Logged.result_bind_ok.mp h
      obtain ⟨-, -, h⟩ := Logged.result_bind_ok.mp h
      obtain ⟨helems, hfree⟩ := allocation_eq_ok hnode
      exact ⟨start, n, finish, x, node, hargs, hn, receiverOf_eq_ok hx, helems, hfree,
        (Except.ok.inj h).symm⟩
  case h_2 => cases h

theorem addQuery_eq_ok (h : (r.addQuery site c).result = .ok r') :
    ∃ x time, c.receiver = some x ∧ c.args = [time] ∧ r' = r.ask ⟨site, x, time⟩ := by
  unfold addQuery at h
  split at h
  case h_1 time hargs =>
    obtain ⟨x, hx, h⟩ := Logged.result_bind_ok.mp h
    exact ⟨x, time, receiverOf_eq_ok hx, hargs, (Except.ok.inj h).symm⟩
  case h_2 => cases h

/-- The initializer keeps what the call says and the one allocation that its receiver denotes. -/
def Keeps (s : Settings) (oracle : Oracle) (i : Initializer) (c : Call) : Prop :=
  ∃ start x, s.bounds? c = some (start, i.finish) ∧ start.int? = some i.start ∧
    c.receiver = some x ∧ (oracle i.site x).elems = [i.node]

/-- What a resolver holds after it was told of the calls. -/
structure Registers (s : Settings) (oracle : Oracle) (calls : List (Site × Call)) (r : Resolver) :
    Prop where
  oracle_eq : r.oracle = oracle
  initializer : ∀ i ∈ r.initializers, ∃ c, (i.site, c) ∈ calls ∧ Keeps s oracle i c
  nodup_nodes : (r.initializers.map Initializer.node).Nodup
  constructed : ∀ site c, (site, c) ∈ calls → s.isInitializer c = true →
    ∃ i ∈ r.initializers, i.site = site
  asked : ∀ site c, (site, c) ∈ calls → s.isQuery c = true →
    ∃ q ∈ r.queries, q.site = site ∧ c.receiver = some q.receiver ∧ c.args = [q.time]

variable {oracle : Oracle} {calls : List (Site × Call)}

/-- One more call: nothing is forgotten, and what is new comes from that call. -/
theorem Registers.extend (h : r.Registers s oracle calls) (horacle : r'.oracle = r.oracle)
    (hinits : r.initializers ⊆ r'.initializers) (hqueries : r.queries ⊆ r'.queries)
    (hnew : ∀ i ∈ r'.initializers, i ∈ r.initializers ∨ i.site = site ∧ Keeps s oracle i c)
    (hnodes : (r'.initializers.map Initializer.node).Nodup)
    (hconstructed : s.isInitializer c = true → ∃ i ∈ r'.initializers, i.site = site)
    (hasked : s.isQuery c = true →
      ∃ q ∈ r'.queries, q.site = site ∧ c.receiver = some q.receiver ∧ c.args = [q.time]) :
    r'.Registers s oracle (calls ++ [(site, c)]) := by
  refine ⟨horacle.trans h.oracle_eq, ?_, hnodes, ?_, ?_⟩
  · intro i hi
    rcases hnew i hi with hold | ⟨rfl, hkeeps⟩
    · obtain ⟨c', hmem, hkeeps⟩ := h.initializer i hold
      exact ⟨c', List.mem_append_left _ hmem, hkeeps⟩
    · exact ⟨c, List.mem_append_right _ (List.mem_singleton_self _), hkeeps⟩
  · intro site' c' hmem hc'
    rcases List.mem_append.mp hmem with hmem | hmem
    · obtain ⟨i, hi, hsite⟩ := h.constructed site' c' hmem hc'
      exact ⟨i, hinits hi, hsite⟩
    · obtain ⟨rfl, rfl⟩ := Prod.mk.inj (List.mem_singleton.mp hmem)
      exact hconstructed hc'
  · intro site' c' hmem hc'
    rcases List.mem_append.mp hmem with hmem | hmem
    · obtain ⟨q, hq, hrest⟩ := h.asked site' c' hmem hc'
      exact ⟨q, hqueries hq, hrest⟩
    · obtain ⟨rfl, rfl⟩ := Prod.mk.inj (List.mem_singleton.mp hmem)
      exact hasked hc'

theorem not_isQuery_of_isInitializer (h : s.isInitializer c = true) : ¬ s.isQuery c = true := by
  have hkind : c.kind = .special := by
    simp only [Settings.isInitializer, Bool.and_eq_true, beq_iff_eq] at h
    exact h.1.1
  simp [Settings.isQuery, hkind]

theorem Registers.addInitializer (h : r.Registers s oracle calls) (hc : s.isInitializer c = true)
    (hadd : (r.addInitializer site c).result = .ok r') :
    r'.Registers s oracle (calls ++ [(site, c)]) := by
  obtain ⟨start, n, finish, x, node, hargs, hn, hx, helems, hfree, rfl⟩ := addInitializer_eq_ok hadd
  have hqueries : r.queries ⊆ (r.push site node n finish).queries := List.Subset.refl _
  refine h.extend rfl (List.subset_append_left _ _) hqueries ?_ ?_ ?_ ?_
  · intro i hi
    refine (List.mem_append.mp hi).imp_right fun hi => ?_
    obtain rfl := List.mem_singleton.mp hi
    exact ⟨rfl, start, x, by simp [Settings.bounds?, hc, hargs], hn, hx, h.oracle_eq ▸ helems⟩
  · rw [initializers_push, List.map_append, List.nodup_append]
    refine ⟨h.nodup_nodes, List.nodup_singleton _, ?_⟩
    intro a ha b hb heq
    obtain ⟨i, hi, rfl⟩ := List.mem_map.mp ha
    -- an allocation that has an initializer is refused
    exact r.nodes.find?_eq_none.mp hfree i hi (heq.trans (List.mem_singleton.mp hb))
  · intro _
    exact ⟨_, List.mem_append_right _ (List.mem_singleton_self _), rfl⟩
  · intro hq
    exact absurd hq (not_isQuery_of_isInitializer hc)

theorem Registers.addQuery (h : r.Registers s oracle calls) (hc : ¬ s.isInitializer c = true)
    (hadd : (r.addQuery site c).result = .ok r') :
    r'.Registers s oracle (calls ++ [(site, c)]) := by
  obtain ⟨x, time, hx, hargs, rfl⟩ := addQuery_eq_ok hadd
  refine h.extend rfl (List.Subset.refl _) (fun q hq => mem_queries_ask.mpr (.inl hq))
    (fun i hi => .inl hi) h.nodup_nodes (fun hi => absurd hi hc) ?_
  intro _
  exact ⟨_, mem_queries_ask.mpr (.inr rfl), rfl, hx, hargs⟩

theorem Registers.addCall (h : r.Registers s oracle calls)
    (hadd : (addCall s r site c).result = .ok r') :
    r'.Registers s oracle (calls ++ [(site, c)]) := by
  unfold Resolver.addCall at hadd
  split at hadd
  case isTrue hc =>
    exact h.addInitializer hc hadd
  case isFalse hc =>
    split at hadd
    case isTrue => exact h.addQuery hc hadd
    case isFalse hq =>
      obtain rfl := Except.ok.inj hadd
      exact h.extend rfl (List.Subset.refl _) (List.Subset.refl _) (fun i hi => .inl hi)
        h.nodup_nodes (fun hi => absurd hi hc) (fun hi => absurd hi hq)

theorem Registers.initializerOf_node (h : r.Registers s oracle calls) {i : Initializer}
    (hi : i ∈ r.initializers) : r.initializerOf i.node = some i :=
  (r.nodes.find?_eq_some h.nodup_nodes).mpr ⟨hi, rfl⟩

/-- A site determines the call there, hence the allocation, hence the initializer. -/
theorem Registers.eq_of_site {cls : Class} (h : r.Registers s oracle cls.calls) {i j : Initializer}
    (hi : i ∈ r.initializers) (hj : j ∈ r.initializers) (hsite : i.site = j.site) : i = j := by
  obtain ⟨c, hc, start, x, -, -, hx, helems⟩ := h.initializer i hi
  obtain ⟨c', hc', start', x', -, -, hx', helems'⟩ := h.initializer j hj
  rw [← hsite] at hc' helems'
  obtain rfl := Class.eq_of_mem_calls hc hc'
  rw [hx] at hx'
  obtain rfl := Option.some.inj hx'
  rw [helems] at helems'
  exact List.inj_on_of_nodup_map h.nodup_nodes hi hj (List.singleton_inj.mp helems')

/-- What holds before the scan and is kept by every call holds of the resolver, with all
calls seen. -/
theorem ofOracle_induction {cls : Class} {P : List (Site × Call) → Resolver → Prop}
    (hstart : P [] (start oracle))
    (hstep : ∀ calls r site c r', P calls r → (Resolver.addCall s r site c).result = .ok r' →
      P (calls ++ [(site, c)]) r')
    (h : (ofOracle cls s oracle).result = .ok r) : P cls.calls r := by
  have hscan : ∀ (rest seen : List (Site × Call)) (r₀ : Resolver), P seen r₀ →
      (rest.foldlM (fun r (site, call) => Resolver.addCall s r site call) r₀).result = .ok r →
      P (seen ++ rest) r := by
    intro rest
    induction rest with
    | nil =>
      intro seen r₀ h₀ hr
      rw [List.append_nil]
      exact Except.ok.inj hr ▸ h₀
    | cons a rest ih =>
      intro seen r₀ h₀ hr
      rw [List.foldlM_cons] at hr
      obtain ⟨r₁, hr₁, hr⟩ := Logged.result_bind_ok.mp hr
      have happend : seen ++ a :: rest = seen ++ [a] ++ rest := by simp
      rw [happend]
      exact ih _ r₁ (hstep seen r₀ a.1 a.2 r₁ h₀ hr₁) hr
  obtain ⟨r₁, hr₁, h⟩ := Logged.result_bind_ok.mp h
  obtain ⟨-, -, h⟩ := Logged.result_bind_ok.mp h
  obtain rfl := Except.ok.inj h
  exact hscan cls.calls [] _ hstart hr₁

theorem registers_of_ofOracle {cls : Class} (h : (ofOracle cls s oracle).result = .ok r) :
    r.Registers s oracle cls.calls :=
  ofOracle_induction (P := fun calls r => r.Registers s oracle calls)
    ⟨rfl, by simp [start], by simp [start], by simp, by simp⟩
    (fun _ _ _ _ _ hr hadd => hr.addCall hadd) h

/-- Queries are calls that ask an interval. -/
theorem exists_call_of_query {cls : Class} (h : (ofOracle cls s oracle).result = .ok r) :
    ∀ q ∈ r.queries, ∃ c, (q.site, c) ∈ cls.calls ∧ s.isQuery c = true ∧
      c.receiver = some q.receiver ∧ c.args = [q.time] := by
  refine ofOracle_induction (P := fun calls r => ∀ q ∈ r.queries, ∃ c, (q.site, c) ∈ calls ∧
    s.isQuery c = true ∧ c.receiver = some q.receiver ∧ c.args = [q.time])
    (fun q hq => by cases hq) ?_ h
  intro calls r site c r' ih hadd q hq
  have hold : q ∈ r.queries → ∃ c', (q.site, c') ∈ calls ++ [(site, c)] ∧
      s.isQuery c' = true ∧ c'.receiver = some q.receiver ∧ c'.args = [q.time] := by
    intro hq
    obtain ⟨c', hmem, hrest⟩ := ih q hq
    exact ⟨c', List.mem_append_left _ hmem, hrest⟩
  unfold Resolver.addCall at hadd
  split at hadd
  · obtain ⟨_, n, finish, _, node, -, -, -, -, -, rfl⟩ := addInitializer_eq_ok hadd
    exact hold hq
  · split at hadd
    case isTrue hc =>
      obtain ⟨x, time, hx, hargs, rfl⟩ := addQuery_eq_ok hadd
      rcases mem_queries_ask.mp hq with hq | rfl
      · exact hold hq
      · exact ⟨c, List.mem_append_right _ (List.mem_singleton_self _), hc, hx, hargs⟩
    case isFalse =>
      obtain rfl := Except.ok.inj hadd
      exact hold hq

end Resolver

end Lifespan
