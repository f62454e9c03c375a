import Lifespan.Verifier
import Lifespan.Proofs.Resolver

namespace Lifespan

theorem Logged.result_allM {α : Type} {f : α → Logged Bool} {l : List α}
    (h : (l.allM f).result = .ok true) : ∀ a ∈ l, (f a).result = .ok true := by
  induction l with
  | nil => simp
  | cons b l ih =>
    rw [List.allM] at h
    obtain ⟨holds, hb, h⟩ := result_bind_ok.mp h
    cases holds with
    | false => cases h
    | true =>
      intro a ha
      rcases List.mem_cons.mp ha with rfl | ha
      · exact hb
      · exact ih h a ha

theorem Logged.result_allM_congr {α : Type} {f g : α → Logged Bool} {l : List α}
    (h : ∀ a ∈ l, (f a).result = (g a).result) : (l.allM f).result = (l.allM g).result := by
  induction l with
  | nil => rfl
  | cons b l ih =>
    rw [List.allM, List.allM, result_bind, result_bind, h b List.mem_cons_self]
    have hrest := ih fun a ha => h a (List.mem_cons_of_mem b ha)
    cases (g b).result with
    | error e => rfl
    | ok holds => cases holds <;> first | rfl | exact hrest

theorem Logged.allM_eq_false {α : Type} {f : α → Logged Bool} {l : List α}
    (h : (l.allM f).result = .ok false) : ∃ a ∈ l, (f a).result = .ok false := by
  induction l with
  | nil => cases h
  | cons b l ih =>
    rw [List.allM] at h
    obtain ⟨holds, hb, h⟩ := result_bind_ok.mp h
    cases holds with
    | false => exact ⟨b, List.mem_cons_self, hb⟩
    | true =>
      obtain ⟨a, ha, hfalse⟩ := ih h
      exact ⟨a, List.mem_cons_of_mem b ha, hfalse⟩

theorem Logged.allM_eq_error {α : Type} {f : α → Logged Bool} {l : List α} {e : Error}
    (h : (l.allM f).result = .error e) : ∃ a ∈ l, (f a).result = .error e := by
  induction l with
  | nil => cases h
  | cons b l ih =>
    rw [List.allM] at h
    rcases result_bind_error.mp h with hb | ⟨holds, -, h⟩
    · exact ⟨b, List.mem_cons_self, hb⟩
    · cases holds with
      | false => cases h
      | true =>
        obtain ⟨a, ha, he⟩ := ih h
        exact ⟨a, List.mem_cons_of_mem b ha, he⟩

namespace Verifier

variable {c : Class} {s : Settings} {r : Resolver} {v v' : Verifier} {p : Property}
    {σ : Schedule} {as : List (Option Analysis)} {e : Error}

/-- Side by side or not, the analysis succeeds if that of every method does. -/
theorem analyzeMethods_eq_ok : (v.analyzeMethods σ).result = .ok as ↔
    (v.cls.methods.zipIdx.map fun (m, id) => (Analysis.ofMethod v.resolver m id).result) =
      as.map .ok := by
  cases σ with
  | inOrder =>
    rw [analyzeMethods, Logged.result_mapM]
    exact Except.mapM_eq_ok_iff
  | sideBySide collector =>
    refine (collector.result_eq_ok _ _).trans ?_
    rw [List.map_map]
    rfl

/-- It fails with the error of a method. -/
theorem exists_of_analyzeMethods_eq_error (h : (v.analyzeMethods σ).result = .error e) :
    ∃ m id, v.cls.methods[id]? = some m ∧
      (Analysis.ofMethod v.resolver m id).result = .error e := by
  have hitem : ∃ item ∈ v.cls.methods.zipIdx,
      (Analysis.ofMethod v.resolver item.1 item.2).result = .error e := by
    cases σ with
    | inOrder =>
      rw [analyzeMethods, Logged.result_mapM] at h
      exact Except.exists_of_mapM_eq_error h
    | sideBySide collector =>
      obtain ⟨item, hitem, he⟩ := collector.exists_of_error _ _ h
      obtain ⟨entry, hentry, rfl⟩ := List.mem_map.mp hitem
      exact ⟨entry, hentry, he⟩
  obtain ⟨⟨m, id⟩, hmem, he⟩ := hitem
  exact ⟨m, id, List.mem_zipIdx_iff_getElem?.mp hmem, he⟩

/-- A verifier of the class; what it holds as analyses are those of the methods. -/
structure Checks (c : Class) (s : Settings) (r : Resolver) (v : Verifier) : Prop where
  cls : v.cls = c
  settings : v.settings = s
  resolver : v.resolver = r
  analyses : ∀ as, v.analyses = some as →
    ((ofResolver c s r).analyzeMethods .inOrder).result = .ok as

theorem checks_ofResolver (c : Class) (s : Settings) (r : Resolver) :
    (ofResolver c s r).Checks c s r :=
  ⟨rfl, rfl, rfl, fun as has => by cases has⟩

/-- What is kept is what analyzing again would give. -/
theorem Checks.result_analyzeClass (h : v.Checks c s r) (σ : Schedule) :
    (v.analyzeClass σ).result = ((ofResolver c s r).analyzeMethods σ).result := by
  unfold Verifier.analyzeClass
  cases has : v.analyses with
  | some as =>
    exact (analyzeMethods_eq_ok.mpr (analyzeMethods_eq_ok.mp (h.analyses as has))).symm
  | none =>
    have hmethods : v.analyzeMethods σ = (ofResolver c s r).analyzeMethods σ := by
      cases σ <;> rw [analyzeMethods, h.cls, h.resolver] <;> rfl
    rw [Logged.result_within, hmethods, Logged.result_bind]
    cases ((ofResolver c s r).analyzeMethods σ).result <;> rfl

/-- A run fails with the analysis, or keeps it and notes the property. -/
theorem runBy_cases (v : Verifier) (σ : Schedule) (p : Property) :
    (∃ e, (v.analyzeClass σ).result = .error e ∧ (v.runBy σ p).1 = v ∧
      (v.runBy σ p).2.result = .error e) ∨
    ∃ as, (v.analyzeClass σ).result = .ok as ∧ (v.runBy σ p).2.result = .ok () ∧
      (v.runBy σ p).1 = { v with
        analyses := some as
        analyzed := if p ∈ v.analyzed then v.analyzed else p :: v.analyzed } := by
  unfold runBy
  dsimp only
  cases (v.analyzeClass σ).result with
  | error e => exact .inl ⟨e, rfl, rfl, rfl⟩
  | ok as => exact .inr ⟨as, rfl, rfl, rfl⟩

theorem Checks.runBy (h : v.Checks c s r) (hrun : (v.runBy σ p).2.result = .ok ()) :
    (v.runBy σ p).1.Checks c s r ∧ (v.runBy σ p).1.analyses.isSome = true := by
  rcases v.runBy_cases σ p with ⟨e, -, -, he⟩ | ⟨as, has, -, hv⟩
  · rw [hrun] at he
    cases he
  · rw [hv]
    refine ⟨⟨h.cls, h.settings, h.resolver, ?_⟩, rfl⟩
    intro as' has'
    obtain rfl := Option.some.inj has'
    rw [h.result_analyzeClass, analyzeMethods_eq_ok] at has
    exact analyzeMethods_eq_ok.mpr has

theorem result_decideLogged (v : Verifier) (p : Property) :
    (v.decideLogged p).result = (v.decide p).result := by
  rw [decideLogged, Logged.result_within, Logged.result_bind]
  cases (v.decide p).result <;> rfl

/-- A check is a run and a decision by the verifier that the run leaves. -/
theorem result_checkBy (v : Verifier) (σ : Schedule) (p : Property) :
    (v.checkBy σ p).2.result =
      (v.runBy σ p).2.result >>= fun _ => ((v.runBy σ p).1.decide p).result := by
  change ((v.runBy σ p).2 >>= fun _ => (v.runBy σ p).1.decideLogged p).result = _
  rw [Logged.result_bind]
  simp only [result_decideLogged]

theorem checkBy_eq_ok {holds : Bool} : (v.checkBy σ p).2.result = .ok holds ↔
    (v.runBy σ p).2.result = .ok () ∧ ((v.runBy σ p).1.decide p).result = .ok holds := by
  rw [result_checkBy, Except.bind_eq_ok]
  constructor
  · rintro ⟨⟨⟩, hrun, hdec⟩
    exact ⟨hrun, hdec⟩
  · rintro ⟨hrun, hdec⟩
    exact ⟨(), hrun, hdec⟩

theorem checkAllBy_cons_eq_ok {ps : List Property} {verdicts : List (Property × Verdict)} :
    (v.checkAllBy σ (p :: ps)).result = .ok verdicts ↔
      ∃ holds rest, (v.checkBy σ p).2.result = .ok holds ∧
      ((v.checkBy σ p).1.checkAllBy σ ps).result = .ok rest ∧
        (p, .ofBool holds) :: rest = verdicts := by
  rw [checkAllBy, Logged.result_bind_ok]
  constructor
  · rintro ⟨holds, hcheck, h⟩
    obtain ⟨-, -, h⟩ := Logged.result_bind_ok.mp h
    obtain ⟨rest, hrest, h⟩ := Logged.result_bind_ok.mp h
    exact ⟨holds, rest, hcheck, hrest, Except.ok.inj h⟩
  · rintro ⟨holds, rest, hcheck, hrest, rfl⟩
    refine ⟨holds, hcheck, Logged.result_bind_ok.mpr ⟨(), rfl, ?_⟩⟩
    exact Logged.result_bind_ok.mpr ⟨rest, hrest, rfl⟩

/-- A property reported safe was decided by a verifier that has analyzed the class. -/
theorem Checks.decided (h : v.Checks c s r) {ps : List Property}
    {verdicts : List (Property × Verdict)} (hall : (v.checkAllBy σ ps).result = .ok verdicts)
    (hsafe : (p, .safe) ∈ verdicts) :
    ∃ v' : Verifier, v'.Checks c s r ∧ v'.analyses.isSome = true ∧
    (v'.decide p).result = .ok true := by
  induction ps generalizing v verdicts with
  | nil =>
    obtain rfl := Except.ok.inj hall
    cases hsafe
  | cons q rest ih =>
    obtain ⟨holds, more, hcheck, hmore, rfl⟩ := checkAllBy_cons_eq_ok.mp hall
    obtain ⟨hrun, hdec⟩ := checkBy_eq_ok.mp hcheck
    obtain ⟨hchecks, hsome⟩ := h.runBy hrun
    rcases List.mem_cons.mp hsafe with heq | hsafe
    · obtain ⟨rfl, hverdict⟩ := Prod.mk.inj heq
      cases holds with
      | false => cases hverdict
      | true => exact ⟨_, hchecks, hsome, hdec⟩
    · exact ih hchecks hmore hsafe

theorem decided_of_verify {ps : List Property} {report : Report}
    (h : (c.verify s ps).result = .ok report) (hsafe : (p, .safe) ∈ report.verdicts) :
    ∃ facts r, ∃ v : Verifier, (PointsTo.ofClass c).result = .ok facts ∧
      (Resolver.ofOracle c s facts.nodesAt).result = .ok r ∧ v.Checks c s r ∧
      v.analyses.isSome = true ∧ (v.decide p).result = .ok true := by
  obtain ⟨v, hv, h⟩ := Logged.result_bind_ok.mp h
  obtain ⟨verdicts, hverdicts, h⟩ := Logged.result_bind_ok.mp h
  obtain rfl := Except.ok.inj h
  obtain ⟨r, hr, hv⟩ := Logged.result_bind_ok.mp hv
  obtain rfl := Except.ok.inj hv
  obtain ⟨facts, hfacts, hr⟩ := Logged.result_bind_ok.mp hr
  obtain ⟨v', hv', hsome, hdec⟩ := (checks_ofResolver c s r).decided hverdicts hsafe
  exact ⟨facts, r, v', hfacts, hr, hv', hsome, hdec⟩

theorem Checks.runBy_eq_ok (h : v.Checks c s r) : (v.runBy σ p).2.result = .ok () ↔
    ∃ as, ((ofResolver c s r).analyzeMethods σ).result = .ok as := by
  rw [← h.result_analyzeClass]
  rcases v.runBy_cases σ p with ⟨e, hfails, -, he⟩ | ⟨as, has, hok, -⟩
  · rw [he, hfails]
    simp
  · exact iff_of_true hok ⟨as, has⟩

/-- What a run that succeeds leaves. -/
theorem Checks.fst_runBy (h : v.Checks c s r)
    (has : ((ofResolver c s r).analyzeMethods σ).result = .ok as) : (v.runBy σ p).1 =
      ⟨c, s, r, some as, if p ∈ v.analyzed then v.analyzed else p :: v.analyzed⟩ := by
  rw [← h.result_analyzeClass] at has
  rcases v.runBy_cases σ p with ⟨e, hfails, -, -⟩ | ⟨as', has', -, hv⟩
  · rw [has] at hfails
    cases hfails
  · rw [has] at has'
    obtain rfl := Except.ok.inj has'
    rw [hv, h.cls, h.settings, h.resolver]

/-- Conversely, a property that the analyses show is reported safe. -/
theorem verify_of_decide {facts : PointsTo}
    (hfacts : (PointsTo.ofClass c).result = .ok facts)
    (hr : (Resolver.ofOracle c s facts.nodesAt).result = .ok r)
    (has : ((ofResolver c s r).analyzeMethods .inOrder).result = .ok as)
    (hdec : (Verifier.decide ⟨c, s, r, some as, [p]⟩ p).result = .ok true) :
    (c.verify s [p]).result = .ok ⟨c.name, [(p, .safe)]⟩ := by
  have hchecks := checks_ofResolver c s r
  have hcheck : ((ofResolver c s r).check p).2.result = .ok true := by
    rw [checkBy_eq_ok, hchecks.fst_runBy has]
    exact ⟨hchecks.runBy_eq_ok.mpr ⟨as, has⟩, hdec⟩
  have hall : ((ofResolver c s r).checkAllBy .inOrder [p]).result = .ok [(p, .safe)] :=
    checkAllBy_cons_eq_ok.mpr ⟨true, [], hcheck, rfl, rfl⟩
  refine Logged.result_bind_ok.mpr ⟨_, ?_, Logged.result_bind_ok.mpr ⟨_, hall, rfl⟩⟩
  refine Logged.result_bind_ok.mpr ⟨r, ?_, rfl⟩
  exact Logged.result_bind_ok.mpr ⟨facts, hfacts, hr⟩

/-- The analysis that the verifier has of a method with code. -/
theorem Checks.analysis? (h : v.Checks c s r) (hsome : v.analyses.isSome = true)
    {id : Nat} {m : Method} (hm : c.methods[id]? = some m) :
    ∃ a, v.analysis? id = a ∧ (Analysis.ofMethod r m id).result = .ok a := by
  obtain ⟨as, has⟩ := Option.isSome_iff_exists.mp hsome
  have hall := h.analyses as has
  rw [analyzeMethods, Logged.result_mapM] at hall
  have hzip : c.methods.zipIdx[id]? = some (m, id) := by simp [hm]
  obtain ⟨a, ha, hof⟩ := Except.exists_getElem?_of_mapM hall hzip
  exact ⟨a, by simp [Verifier.analysis?, has, ha], hof⟩

theorem analysisOf_eq_ok {method : Nat} {a : Analysis} :
    v.analysisOf method = .ok a ↔ v.analysis? method = some a := by
  unfold analysisOf
  cases v.analysis? method <;> simp

theorem fallAfter_eq_ok {a : Analysis} {site : Site} {state : AbstractState} :
    a.fallAfter site = .ok state ↔ ∃ node, a.node? site.index = some node ∧
      state = ⟨a.env, node.fall⟩ := by
  unfold Analysis.fallAfter
  cases a.node? site.index <;> simp [eq_comm]

theorem stateAfter_eq_ok {site : Site} {state : AbstractState} (h : v.stateAfter site = .ok state) :
    ∃ a node, v.analysis? site.method = some a ∧ a.node? site.index = some node ∧
      state = ⟨a.env, node.fall⟩ := by
  obtain ⟨a, ha, h⟩ := Except.bind_eq_ok.mp h
  obtain ⟨node, hnode, rfl⟩ := fallAfter_eq_ok.mp h
  exact ⟨a, node, analysisOf_eq_ok.mp ha, hnode, rfl⟩

theorem receivers_eq_ok {q : Query} {inits : List Initializer} (h : v.receivers q = .ok inits) :
    inits = v.resolver.resolve q.site q.receiver := by
  unfold receivers at h
  split at h
  case h_1 hnil =>
    rw [hnil]
    split at h
    · exact (Except.ok.inj h).symm
    · cases h
  case h_2 => exact (Except.ok.inj h).symm

theorem receivers_eq_error {q : Query} {e : Error} (h : v.receivers q = .error e) :
    v.resolver.resolve q.site q.receiver = [] ∧ v.settings.allowUnresolved = false ∧
      e = .unsupported (.unresolvedReceiver q.receiver q.site) := by
  unfold receivers at h
  split at h
  case h_1 hnil =>
    split at h
    case isTrue => cases h
    case isFalse hstrict => exact ⟨hnil, by simpa using hstrict, (Except.error.inj h).symm⟩
  case h_2 => cases h

theorem ordered_eq_ok {i : Initializer} {holds : Bool} (h : (v.ordered i).result = .ok holds) :
    ∃ a node finish, v.analysis? i.site.method = some a ∧ a.node? i.site.index = some node ∧
      i.finish.term = .ok finish ∧
      a.env.entailsGe node.fall finish (.const i.start) = .ok holds := by
  obtain ⟨state, hstate, h⟩ := Logged.result_bind_ok.mp h
  obtain ⟨finish, hfinish, h⟩ := Logged.result_bind_ok.mp h
  obtain ⟨holds', hholds, h⟩ := Logged.result_bind_ok.mp h
  obtain ⟨-, -, h⟩ := Logged.result_bind_ok.mp h
  obtain rfl := Except.ok.inj h
  obtain ⟨a, node, ha, hnode, rfl⟩ := stateAfter_eq_ok hstate
  exact ⟨a, node, finish, ha, hnode, hfinish, hholds⟩

/-- The check of a query by itself. -/
def queriedAt (v : Verifier) (demand : Demand) (q : Query) : Logged Bool := do
  v.queried demand (← v.analysisOf q.site.method) q

/-- Queries of one method are checked in one analysis, and where there is none the first
query fails. -/
theorem result_queriedIn (v : Verifier) (demand : Demand) (method : Nat) :
    (v.queriedIn demand method).result =
      ((v.resolver.queriesOf method).allM (v.queriedAt demand)).result := by
  have hmethod : ∀ q ∈ v.resolver.queriesOf method, q.site.method = method :=
    v.resolver.grouped method
  unfold queriedIn
  cases hqs : v.resolver.queriesOf method with
  | nil => rfl
  | cons q qs =>
    rw [hqs] at hmethod
    dsimp only
    rw [Logged.result_bind]
    cases ha : v.analysisOf method with
    | error e =>
      have hfirst : (v.queriedAt demand q).result = .error e := by
        rw [queriedAt, Logged.result_bind, hmethod q List.mem_cons_self, ha]
        rfl
      rw [List.allM, Logged.result_bind, hfirst]
      rfl
    | ok a =>
      have hsame : ∀ q' ∈ q :: qs, (v.queried demand a q').result =
          (v.queriedAt demand q').result := by
        intro q' hq'
        rw [queriedAt, Logged.result_bind, hmethod q' hq', ha]
        rfl
      exact Logged.result_allM_congr hsame

/-- The decision about queries is one about each of them. -/
theorem queriedAll_eq_true {demand : Demand} (h : (v.queriedAll demand).result = .ok true)
    {q : Query} (hq : q ∈ v.resolver.queries) (hlt : q.site.method < v.cls.methods.length) :
    (v.queriedAt demand q).result = .ok true := by
  have hin := Logged.result_allM h q.site.method (List.mem_range.mpr hlt)
  rw [result_queriedIn] at hin
  exact Logged.result_allM hin q (Resolver.mem_queries.mp hq)

theorem queriedAll_eq_false {demand : Demand} (h : (v.queriedAll demand).result = .ok false) :
    ∃ q ∈ v.resolver.queries, (v.queriedAt demand q).result = .ok false := by
  obtain ⟨method, -, h⟩ := Logged.allM_eq_false h
  rw [result_queriedIn] at h
  obtain ⟨q, hq, h⟩ := Logged.allM_eq_false h
  exact ⟨q, (Resolver.mem_queriesOf.mp hq).1, h⟩

theorem queriedAll_eq_error {demand : Demand} (h : (v.queriedAll demand).result = .error e) :
    ∃ q ∈ v.resolver.queries, (v.queriedAt demand q).result = .error e := by
  obtain ⟨method, -, h⟩ := Logged.allM_eq_error h
  rw [result_queriedIn] at h
  obtain ⟨q, hq, h⟩ := Logged.allM_eq_error h
  exact ⟨q, (Resolver.mem_queriesOf.mp hq).1, h⟩

/-- A query passes its check for every interval that it may be about, or fails it for one
of them. -/
theorem queriedAt_eq_ok {demand : Demand} {q : Query} {holds : Bool}
    (h : (v.queriedAt demand q).result = .ok holds) :
    ∃ a node time, v.analysis? q.site.method = some a ∧ a.node? q.site.index = some node ∧
      q.time.term = .ok time ∧
      (holds = true → ∀ i ∈ v.resolver.resolve q.site q.receiver,
        demand ⟨a.env, node.fall⟩ time i = .ok true) ∧
      (holds = false → ∃ i ∈ v.resolver.resolve q.site q.receiver, demand ⟨a.env, node.fall⟩ time
        i = .ok false) := by
  obtain ⟨a, ha, h⟩ := Logged.result_bind_ok.mp h
  obtain ⟨state, hstate, h⟩ := Logged.result_bind_ok.mp h
  obtain ⟨time, htime, h⟩ := Logged.result_bind_ok.mp h
  obtain ⟨inits, hinits, h⟩ := Logged.result_bind_ok.mp h
  obtain ⟨node, hnode, rfl⟩ := fallAfter_eq_ok.mp hstate
  rw [receivers_eq_ok hinits] at h
  have hdemand : ∀ i answer, (do
      let holds ← demand ⟨a.env, node.fall⟩ time i
      Logged.report (.query q time i holds)
      return holds : Logged Bool).result = .ok answer → demand ⟨a.env, node.fall⟩ time
        i = .ok answer := by
    intro i answer hi
    obtain ⟨holds', hholds, hi⟩ := Logged.result_bind_ok.mp hi
    obtain ⟨-, -, hi⟩ := Logged.result_bind_ok.mp hi
    obtain rfl := Except.ok.inj hi
    exact hholds
  refine ⟨a, node, time, analysisOf_eq_ok.mp ha, hnode, htime, ?_, ?_⟩
  · rintro rfl i hi
    exact hdemand i true (Logged.result_allM h i hi)
  · rintro rfl
    obtain ⟨i, hi, hfalse⟩ := Logged.allM_eq_false h
    exact ⟨i, hi, hdemand i false hfalse⟩

/-- Where the check of a query can fail. -/
theorem queriedAt_eq_error {demand : Demand} {q : Query}
    (h : (v.queriedAt demand q).result = .error e) :
    v.stateAfter q.site = .error e ∨ q.time.term = .error e ∨ v.receivers q = .error e ∨
      ∃ state time, v.stateAfter q.site = .ok state ∧ q.time.term = .ok time ∧
        ∃ i ∈ v.resolver.resolve q.site q.receiver, demand state time i = .error e := by
  rcases Logged.result_bind_error.mp h with h | ⟨a, ha, h⟩
  · exact .inl (Except.bind_eq_error.mpr (.inl h))
  rcases Logged.result_bind_error.mp h with h | ⟨state, hstate, h⟩
  · exact .inl (Except.bind_eq_error.mpr (.inr ⟨a, ha, h⟩))
  have hstate : v.stateAfter q.site = .ok state := Except.bind_eq_ok.mpr ⟨a, ha, hstate⟩
  rcases Logged.result_bind_error.mp h with h | ⟨time, htime, h⟩
  · exact .inr (.inl h)
  rcases Logged.result_bind_error.mp h with h | ⟨inits, hinits, h⟩
  · exact .inr (.inr (.inl h))
  obtain ⟨i, hi, h⟩ := Logged.allM_eq_error h
  rw [receivers_eq_ok hinits] at hi
  rcases Logged.result_bind_error.mp h with h | ⟨holds, -, h⟩
  · exact .inr (.inr (.inr ⟨state, time, hstate, htime, i, hi, h⟩))
  · cases h

end Verifier

end Lifespan
