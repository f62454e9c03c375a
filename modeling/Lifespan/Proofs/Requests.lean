import Lifespan.Proofs.Safety

namespace Lifespan

/-- What may be asked of a verifier: to analyze for a property, to analyze and decide it, or only
to decide. -/
inductive Request where
  | run (σ : Schedule) (p : Property)
  | check (σ : Schedule) (p : Property)
  | decide (p : Property)

namespace Verifier

variable {c : Class} {s : Settings} {r : Resolver} {v : Verifier} {p q : Property} {e : Error}
    {σ : Schedule}

/-- The verifier after a request. -/
def after (v : Verifier) : Request → Verifier
  | .run σ p => (v.runBy σ p).1
  | .check σ p => (v.checkBy σ p).1
  | .decide _ => v

def afterAll (v : Verifier) (history : List Request) : Verifier := history.foldl after v

/-- The request analyzes for `p`, and gets past the analysis. -/
def Readies (v : Verifier) (request : Request) (p : Property) : Prop :=
  ∃ σ, (request = .run σ p ∨ request = .check σ p) ∧ (v.runBy σ p).2.result = .ok ()

/-- A request of the history analyzed for `p` and got past the analysis. -/
def Prepares (v : Verifier) (history : List Request) (p : Property) : Prop :=
  ∃ earlier request later, history = earlier ++ request :: later ∧
    (v.afterAll earlier).Readies request p

theorem prepares_cons {request : Request} {rest : List Request} : v.Prepares (request :: rest) p ↔
    v.Readies request p ∨ (v.after request).Prepares rest p := by
  constructor
  · rintro ⟨earlier, request', later, heq, hready⟩
    cases earlier with
    | nil =>
      obtain ⟨rfl, rfl⟩ := List.cons.inj heq
      exact .inl hready
    | cons a earlier =>
      obtain ⟨rfl, rfl⟩ := List.cons.inj heq
      exact .inr ⟨earlier, request', later, rfl, hready⟩
  · rintro (hready | ⟨earlier, request', later, rfl, hready⟩)
    · exact ⟨[], request, rest, rfl, hready⟩
    · exact ⟨request :: earlier, request', later, rfl, hready⟩

/-- A decision depends on the analyses and on nothing else that the verifier has been asked for. -/
theorem decide_of_mem (h : p ∈ v.analyzed) : v.decide p = decide { v with analyzed := [p] } p := by
  unfold decide
  rw [if_pos h, if_pos (List.mem_singleton_self p)]
  rfl

/-- The answer to a check: the error of the analysis, or what is decided from it. -/
def answerBy (c : Class) (s : Settings) (r : Resolver) (σ : Schedule) (p : Property) :
    Except Error Bool := do
  let as ← ((ofResolver c s r).analyzeMethods σ).result
  (decide ⟨c, s, r, some as, [p]⟩ p).result

theorem Checks.runBy_eq_error (h : v.Checks c s r) : (v.runBy σ p).2.result = .error e ↔
    ((ofResolver c s r).analyzeMethods σ).result = .error e := by
  rw [← h.result_analyzeClass]
  rcases v.runBy_cases σ p with ⟨e', hfails, -, he⟩ | ⟨as, has, hok, -⟩
  · rw [he, hfails]
    simp
  · rw [hok, has]
    simp

theorem fst_runBy_of_error (h : (v.runBy σ p).2.result = .error e) : (v.runBy σ p).1 = v := by
  rcases v.runBy_cases σ p with ⟨-, -, hsame, -⟩ | ⟨-, -, hok, -⟩
  · exact hsame
  · rw [h] at hok
    cases hok

theorem Checks.result_decide (h : v.Checks c s r) (hp : p ∈ v.analyzed)
    (hsome : v.analyses.isSome = true) (σ : Schedule) :
    (v.decide p).result = answerBy c s r σ p := by
  obtain ⟨as, has⟩ := Option.isSome_iff_exists.mp hsome
  have hall : ((ofResolver c s r).analyzeMethods σ).result = .ok as :=
    analyzeMethods_eq_ok.mpr (analyzeMethods_eq_ok.mp (h.analyses as has))
  rw [decide_of_mem hp, answerBy, h.cls, h.settings, h.resolver, has, hall]
  rfl

theorem mem_analyzed_of_run (h : (v.runBy σ p).2.result = .ok ()) :
    q ∈ (v.runBy σ p).1.analyzed ↔ q ∈ v.analyzed ∨ q = p := by
  rcases v.runBy_cases σ p with ⟨e, -, -, he⟩ | ⟨as, -, -, hv⟩
  · rw [h] at he
    cases he
  · rw [hv]
    dsimp only
    split
    case isTrue hp =>
      constructor
      · exact .inl
      · rintro (hq | rfl)
        · exact hq
        · exact hp
    case isFalse => rw [List.mem_cons, or_comm]

theorem Checks.result_checkBy (h : v.Checks c s r) (σ : Schedule) (p : Property) :
    (v.checkBy σ p).2.result = answerBy c s r σ p := by
  rw [Verifier.result_checkBy]
  cases hrun : (v.runBy σ p).2.result with
  | error e =>
    rw [answerBy, h.runBy_eq_error.mp hrun]
    rfl
  | ok _ =>
    obtain ⟨hchecks, hsome⟩ := h.runBy hrun
    exact hchecks.result_decide ((mem_analyzed_of_run hrun).mpr (.inr rfl)) hsome σ

/-- What holds of a verifier at any time: it checks the class, and has analyzed it if it has for
some property. -/
structure Serves (c : Class) (s : Settings) (r : Resolver) (v : Verifier) : Prop where
  checks : v.Checks c s r
  prepared : ∀ p ∈ v.analyzed, v.analyses.isSome = true

theorem Serves.after (h : v.Serves c s r) (request : Request) : (v.after request).Serves c s r := by
  have hrun : ∀ σ p, (v.runBy σ p).1.Serves c s r := by
    intro σ p
    cases hrun : (v.runBy σ p).2.result with
    | error e =>
      rw [fst_runBy_of_error hrun]
      exact h
    | ok _ =>
      obtain ⟨hchecks, hsome⟩ := h.checks.runBy hrun
      exact ⟨hchecks, fun _ _ => hsome⟩
  cases request with
  | run σ p | check σ p => exact hrun σ p
  | decide p => exact h

theorem Serves.afterAll (h : v.Serves c s r) (history : List Request) :
    (v.afterAll history).Serves c s r := by
  induction history generalizing v with
  | nil => exact h
  | cons request rest ih => exact ih (h.after request)

theorem serves_ofResolver (c : Class) (s : Settings) (r : Resolver) :
    (ofResolver c s r).Serves c s r :=
  ⟨checks_ofResolver c s r, fun p hp => by cases hp⟩

theorem mem_analyzed_after {request : Request} :
    p ∈ (v.after request).analyzed ↔ p ∈ v.analyzed ∨ v.Readies request p := by
  have hrun : ∀ σ q, p ∈ (v.runBy σ q).1.analyzed ↔
      p ∈ v.analyzed ∨ q = p ∧ (v.runBy σ p).2.result = .ok () := by
    intro σ q
    cases hq : (v.runBy σ q).2.result with
    | error e =>
      rw [fst_runBy_of_error hq]
      grind
    | ok _ =>
      rw [mem_analyzed_of_run hq]
      grind
  cases request with
  | run σ q =>
    refine (hrun σ q).trans (or_congr_right ?_)
    simp [Readies]
  | check σ q =>
    refine (hrun σ q).trans (or_congr_right ?_)
    simp [Readies]
  | decide q => simp [Verifier.after, Readies]

theorem mem_analyzed_afterAll {history : List Request} :
    p ∈ (v.afterAll history).analyzed ↔ p ∈ v.analyzed ∨ v.Prepares history p := by
  induction history generalizing v with
  | nil => simp [afterAll, Prepares]
  | cons request rest ih =>
    change p ∈ ((v.after request).afterAll rest).analyzed ↔ _
    rw [ih, mem_analyzed_after, prepares_cons, or_assoc]

/-- Schedules differ in no answer that comes from a finished analysis. -/
theorem Checks.answerBy_eq (h : v.Checks c s r) (hrun : (v.runBy σ p).2.result = .ok ())
    (σ' : Schedule) : answerBy c s r σ p = answerBy c s r σ' p := by
  obtain ⟨as, has⟩ := h.runBy_eq_ok.mp hrun
  have has' : ((ofResolver c s r).analyzeMethods σ').result = .ok as :=
    analyzeMethods_eq_ok.mpr (analyzeMethods_eq_ok.mp has)
  rw [answerBy, answerBy, has, has']

/-- A failure under one schedule is a failure under each, with the error of a method. -/
theorem Checks.exists_error (h : v.Checks c s r) (hrun : (v.runBy σ p).2.result = .error e)
    (σ' : Schedule) (q : Property) :
    ∃ e', (v.runBy σ' q).2.result = .error e' ∧ (v.checkBy σ' q).2.result = .error e' ∧
      ∃ m id, c.methods[id]? = some m ∧ (Analysis.ofMethod r m id).result = .error e' := by
  have hfails := h.runBy_eq_error.mp hrun
  cases hmethods : ((ofResolver c s r).analyzeMethods σ').result with
  | ok as =>
    rw [analyzeMethods_eq_ok.mpr (analyzeMethods_eq_ok.mp hmethods)] at hfails
    cases hfails
  | error e' =>
    refine ⟨e', h.runBy_eq_error.mpr hmethods, ?_, exists_of_analyzeMethods_eq_error hmethods⟩
    rw [h.result_checkBy, answerBy, hmethods]
    rfl

/-- Once the analysis fails, it fails for every property, and nothing changes any more. -/
theorem Checks.afterAll_of_error (h : v.Checks c s r) (hrun : (v.runBy σ p).2.result = .error e)
    (later : List Request) : v.afterAll later = v := by
  have hsame : ∀ σ' q, (v.runBy σ' q).1 = v := by
    intro σ' q
    obtain ⟨e', he', -⟩ := h.exists_error hrun σ' q
    exact fst_runBy_of_error he'
  have hall : ∀ request, v.after request = v := by
    rintro (⟨σ', q⟩ | ⟨σ', q⟩ | q)
    · exact hsame σ' q
    · exact hsame σ' q
    · rfl
  induction later with
  | nil => rfl
  | cons request rest ih =>
    change (v.after request).afterAll rest = v
    rw [hall, ih]

/-- Checking in turn gives the answers of single checks. -/
theorem Serves.result_checkAllBy (h : v.Serves c s r) (σ : Schedule) (ps : List Property) :
    (v.checkAllBy σ ps).result = ps.mapM fun p => (fun holds => (p, Verdict.ofBool holds)) <$>
      answerBy c s r σ p := by
  induction ps generalizing v with
  | nil => rfl
  | cons p ps ih =>
    have hrest := ih (h.after (.check σ p))
    rw [checkAllBy, Logged.result_bind, h.checks.result_checkBy, List.mapM_cons, ← hrest]
    cases answerBy c s r σ p with
    | error e => rfl
    | ok holds =>
      change (((v.checkBy σ p).1.checkAllBy σ ps) >>= fun rest => pure ((p, Verdict.ofBool holds) ::
        rest)).result = _
      rw [Logged.result_bind]
      rfl

end Verifier

/-- The properties that a verification is about: all of them if none is named. -/
def Property.asked (ps : List Property) : List Property := if ps.isEmpty then all else ps

theorem Class.result_verifyBy {c : Class} {s : Settings} {r : Resolver}
    (hr : (Resolver.ofClass c s).result = .ok r) (σ : Schedule) (ps : List Property) :
    (c.verifyBy s σ ps).result = Report.mk c.name <$> (Property.asked ps).mapM fun p =>
      (fun holds => (p, Verdict.ofBool holds)) <$> Verifier.answerBy c s r σ p := by
  have hv : (Verifier.ofClass c s).result = .ok (Verifier.ofResolver c s r) :=
    Logged.result_bind_ok.mpr ⟨r, hr, rfl⟩
  rw [Class.verifyBy, Logged.result_bind, hv,
    ← (Verifier.serves_ofResolver c s r).result_checkAllBy]
  change ((Verifier.ofResolver c s r).checkAllBy σ (Property.asked ps) >>= _).result = _
  rw [Logged.result_bind]
  rfl

namespace Verifier

theorem span_ofClass : (Resolver.ofClass spanClass {}).result = .ok spanResolver :=
  Logged.result_bind_ok.mpr ⟨spanFacts, span_pointsTo, span_resolver⟩

theorem span_answer (p : Property) : answerBy spanClass {} spanResolver .inOrder p = .ok true := by
  have hverify := span_verify p
  rw [Class.result_verifyBy span_ofClass, Property.asked, if_neg (by simp), List.mapM_cons,
    List.mapM_nil] at hverify
  cases hanswer : answerBy spanClass {} spanResolver .inOrder p with
  | error e =>
    rw [hanswer] at hverify
    cases hverify
  | ok holds =>
    rw [hanswer] at hverify
    cases holds with
    | false => cases hverify
    | true => rfl

/-- Of several failures, reports the last. -/
def fromLast : Collector where
  collect items := do return (← items.reverse.mapM id).reverse
  result_eq_ok items as := by
    rw [Logged.result_bind_ok, Logged.result_mapM]
    constructor
    · rintro ⟨as', has', h⟩
      obtain rfl := Except.pure_eq_ok.mp h
      rw [List.map_reverse, ← Except.mapM_eq_ok_iff.mp has', List.map_reverse, List.reverse_reverse]
      rfl
    · intro h
      refine ⟨as.reverse, Except.mapM_eq_ok_iff.mpr ?_, ?_⟩
      · rw [List.map_reverse, List.map_reverse, ← h]
        rfl
      · rw [List.reverse_reverse, Logged.result_pure]
  exists_of_error items e he := by
    rw [Logged.result_bind_error, Logged.result_mapM] at he
    rcases he with he | ⟨as, -, he⟩
    · obtain ⟨item, hitem, hfails⟩ := Except.exists_of_mapM_eq_error he
      exact ⟨item, List.mem_reverse.mp hitem, hfails⟩
    · cases he

/-- Decisions before and after the analysis, an analysis for one property and a check of another,
the methods now in order and now side by side. -/
def busyHistory : List Request :=
  [.decide .beforeEnd, .run .inOrder .afterStart, .check (.sideBySide fromLast) .beforeEnd,
    .decide .startEndOrder]

/-- Methods that give a value back cannot be analyzed. -/
def leakClass : Class :=
  ⟨"Leak", [⟨"leak", [], some ⟨1, #v[.returnValue (.int 0)], by decide, rfl⟩⟩,
    ⟨"spill", [], some ⟨1, #v[.returnValue (.int 1)], by decide, rfl⟩⟩]⟩

def leakResolver : Resolver := .start fun _ _ => FinMap.empty

theorem leak_fails :
    (((ofResolver leakClass {} leakResolver).afterAll busyHistory).runBy .inOrder
      .afterStart).2.result = .error (.unsupported (.returnValue (.int 0))) ∧
    (((ofResolver leakClass {} leakResolver).afterAll busyHistory).runBy (.sideBySide fromLast)
      .afterStart).2.result = .error (.unsupported (.returnValue (.int 1))) := by
  constructor
  · cbv
  · cbv

end Verifier

end Lifespan
