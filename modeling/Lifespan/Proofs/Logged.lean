import Lifespan.Log

namespace Except

variable {ε α β : Type}

theorem bind_eq_ok {x : Except ε α} {f : α → Except ε β} {b : β} :
    (x >>= f) = .ok b ↔ ∃ a, x = .ok a ∧ f a = .ok b := by
  cases x <;> simp [Bind.bind, Except.bind]

theorem bind_eq_error {x : Except ε α} {f : α → Except ε β} {e : ε} :
    (x >>= f) = .error e ↔ x = .error e ∨ ∃ a, x = .ok a ∧ f a = .error e := by
  cases x <;> simp [Bind.bind, Except.bind]

theorem pure_eq_ok {a b : α} : (pure a : Except ε α) = .ok b ↔ a = b := by
  simp [Pure.pure, Except.pure]

theorem map_eq_ok {x : Except ε α} {f : α → β} {b : β} : f <$> x = .ok b ↔
    ∃ a, x = .ok a ∧ f a = b := by
  rw [← bind_pure_comp, bind_eq_ok]
  simp only [pure_eq_ok]

section Failures

variable {α' β' : Type}

/-- Neither fails, or both with the same error. -/
def FailsAlike (x : Except ε α) (y : Except ε β) : Prop := ∀ e, x = .error e ↔ y = .error e

theorem failsAlike_ok (a : α) (b : β) : FailsAlike (.ok a : Except ε α) (.ok b) := by
  intro e
  constructor <;> intro h <;> cases h

theorem FailsAlike.refl (x : Except ε α) : FailsAlike x x := fun _ => Iff.rfl

theorem FailsAlike.bind {x : Except ε α} {y : Except ε β} {f : α → Except ε α'}
    {g : β → Except ε β'} (h : FailsAlike x y)
    (hfg : ∀ a b, x = .ok a → y = .ok b → FailsAlike (f a) (g b)) :
    FailsAlike (x >>= f) (y >>= g) := by
  intro e
  cases x with
  | error e' =>
    rw [(h e').mp rfl]
    simp [Bind.bind, Except.bind]
  | ok a =>
    cases y with
    | error e' => cases (h e').mpr rfl
    | ok b => exact hfg a b rfl rfl e

/-- After the same beginning. -/
theorem FailsAlike.after (x : Except ε α) {f : α → Except ε α'} {g : α → Except ε β'}
    (hfg : ∀ a, FailsAlike (f a) (g a)) : FailsAlike (x >>= f) (x >>= g) := by
  refine (FailsAlike.refl x).bind ?_
  rintro a b rfl hb
  obtain rfl := Except.ok.inj hb
  exact hfg a

end Failures

/-- Results of a list correspond to its elements. -/
theorem getElem?_of_mapM {f : α → Except ε β} {l : List α} {l' : List β}
    (h : l.mapM f = .ok l') {i : Nat} {b : β} (hb : l'[i]? = some b) :
    ∃ a, l[i]? = some a ∧ f a = .ok b := by
  induction l generalizing l' i with
  | nil =>
    rw [List.mapM_nil] at h
    obtain rfl := pure_eq_ok.mp h
    simp at hb
  | cons a l ih =>
    rw [List.mapM_cons] at h
    obtain ⟨c, hc, h⟩ := bind_eq_ok.mp h
    obtain ⟨rest, hrest, h⟩ := bind_eq_ok.mp h
    obtain rfl := pure_eq_ok.mp h
    cases i with
    | zero =>
      obtain rfl := Option.some.inj hb
      exact ⟨a, rfl, hc⟩
    | succ i => exact ih hrest hb

theorem length_of_mapM {f : α → Except ε β} {l : List α} {l' : List β} (h : l.mapM f = .ok l') :
    l'.length = l.length := by
  induction l generalizing l' with
  | nil =>
    rw [List.mapM_nil] at h
    obtain rfl := pure_eq_ok.mp h
    rfl
  | cons a l ih =>
    rw [List.mapM_cons] at h
    obtain ⟨c, hc, h⟩ := bind_eq_ok.mp h
    obtain ⟨rest, hrest, h⟩ := bind_eq_ok.mp h
    obtain rfl := pure_eq_ok.mp h
    rw [List.length_cons, List.length_cons, ih hrest]

theorem exists_getElem?_of_mapM {f : α → Except ε β} {l : List α} {l' : List β}
    (h : l.mapM f = .ok l') {i : Nat} {a : α} (ha : l[i]? = some a) :
    ∃ b, l'[i]? = some b ∧ f a = .ok b := by
  have hlt : i < l'.length := by
    rw [length_of_mapM h]
    exact (List.getElem?_eq_some_iff.mp ha).1
  obtain ⟨a', ha', hf⟩ := getElem?_of_mapM h (List.getElem?_eq_getElem hlt)
  rw [ha] at ha'
  obtain rfl := Option.some.inj ha'
  exact ⟨l'[i], List.getElem?_eq_getElem hlt, hf⟩

theorem mem_of_mapM {f : α → Except ε β} {l : List α} {l' : List β} (h : l.mapM f = .ok l') {b : β}
    (hb : b ∈ l') : ∃ a ∈ l, f a = .ok b := by
  obtain ⟨i, hi⟩ := List.mem_iff_getElem?.mp hb
  obtain ⟨a, ha, hf⟩ := getElem?_of_mapM h hi
  exact ⟨a, List.mem_iff_getElem?.mpr ⟨i, ha⟩, hf⟩

theorem exists_mapM_eq_ok {f : α → Except ε β} {l : List α} (h : ∀ a ∈ l, ∃ b, f a = .ok b) :
    ∃ l', l.mapM f = .ok l' := by
  induction l with
  | nil => exact ⟨[], List.mapM_nil⟩
  | cons a l ih =>
    obtain ⟨b, hb⟩ := h a List.mem_cons_self
    obtain ⟨rest, hrest⟩ := ih fun c hc => h c (List.mem_cons_of_mem a hc)
    refine ⟨b :: rest, ?_⟩
    rw [List.mapM_cons, hb, hrest]
    rfl

theorem mapM_eq_ok_map {f : α → Except ε β} {g : α → β} {l : List α}
    (h : ∀ a ∈ l, f a = .ok (g a)) :
    l.mapM f = .ok (l.map g) := by
  induction l with
  | nil => exact List.mapM_nil
  | cons a l ih =>
    rw [List.mapM_cons, h a List.mem_cons_self, ih fun b hb => h b (List.mem_cons_of_mem a hb)]
    rfl

/-- The first failure is the result. -/
theorem mapM_eq_error {f : α → Except ε β} {l l' : List α} {a : α} {e : ε}
    (h : ∀ b ∈ l, ∃ c, f b = .ok c) (ha : f a = .error e) : (l ++ a :: l').mapM f = .error e := by
  obtain ⟨cs, hcs⟩ := exists_mapM_eq_ok h
  rw [List.mapM_append, hcs, List.mapM_cons, ha]
  rfl

theorem mapM_eq_ok_iff {f : α → Except ε β} {l : List α} {l' : List β} :
    l.mapM f = .ok l' ↔ l.map f = l'.map .ok := by
  induction l generalizing l' with
  | nil =>
    rw [List.mapM_nil, pure_eq_ok]
    cases l' <;> simp
  | cons a l ih =>
    rw [List.mapM_cons, bind_eq_ok]
    constructor
    · rintro ⟨b, hb, h⟩
      obtain ⟨rest, hrest, h⟩ := bind_eq_ok.mp h
      obtain rfl := pure_eq_ok.mp h
      rw [List.map_cons, List.map_cons, hb, ih.mp hrest]
    · intro h
      cases l' with
      | nil => cases h
      | cons b rest =>
        obtain ⟨hb, hrest⟩ := List.cons.inj h
        exact ⟨b, hb, bind_eq_ok.mpr ⟨rest, ih.mpr hrest, rfl⟩⟩

theorem exists_of_mapM_eq_error {f : α → Except ε β} {l : List α} {e : ε}
    (h : l.mapM f = .error e) : ∃ a ∈ l, f a = .error e := by
  induction l with
  | nil => cases h
  | cons a l ih =>
    rw [List.mapM_cons] at h
    rcases bind_eq_error.mp h with ha | ⟨b, -, h⟩
    · exact ⟨a, List.mem_cons_self, ha⟩
    · rcases bind_eq_error.mp h with hrest | ⟨rest, -, h⟩
      · obtain ⟨c, hc, he⟩ := ih hrest
        exact ⟨c, List.mem_cons_of_mem a hc, he⟩
      · cases h

theorem exists_mapM_iff {f : α → Except ε β} {l : List α} :
    (∃ l', l.mapM f = .ok l') ↔ ∀ a ∈ l, ∃ b, f a = .ok b := by
  refine ⟨?_, exists_mapM_eq_ok⟩
  rintro ⟨l', h⟩ a ha
  obtain ⟨i, hi⟩ := List.mem_iff_getElem?.mp ha
  obtain ⟨b, -, hb⟩ := exists_getElem?_of_mapM h hi
  exact ⟨b, hb⟩

/-- What undoes each result undoes the results of a list. -/
theorem map_of_mapM {f : α → Except ε β} {g : β → α}
    (hg : ∀ a b, f a = .ok b → g b = a) {l : List α} {l' : List β} (h : l.mapM f = .ok l') :
    l'.map g = l := by
  induction l generalizing l' with
  | nil =>
    rw [List.mapM_nil] at h
    obtain rfl := pure_eq_ok.mp h
    rfl
  | cons a l ih =>
    rw [List.mapM_cons] at h
    obtain ⟨b, hb, h⟩ := bind_eq_ok.mp h
    obtain ⟨rest, hrest, h⟩ := bind_eq_ok.mp h
    obtain rfl := pure_eq_ok.mp h
    rw [List.map_cons, hg a b hb, ih hrest]

/-- Results of a vector are those of its list. -/
theorem mapM_toList {n : Nat} {f : α → Except ε β} {xs : Vector α n} {ys : Vector β n} :
    xs.toList.mapM f = .ok ys.toList ↔ xs.mapM f = .ok ys := by
  have hlist : xs.toList.mapM f = Vector.toList <$> xs.mapM f := by
    have harray : xs.toList.mapM f = Array.toList <$> xs.toArray.mapM f := Array.toList_mapM.symm
    rw [harray, ← Vector.toArray_mapM]
    cases xs.mapM f <;> rfl
  rw [hlist, map_eq_ok]
  constructor
  · rintro ⟨zs, hzs, heq⟩
    rw [hzs, Vector.toList_inj.mp heq]
  · intro h
    exact ⟨ys, h, rfl⟩

theorem get_of_mapM {n : Nat} {f : α → Except ε β} {xs : Vector α n} {ys : Vector β n}
    (h : xs.mapM f = .ok ys) (i : Fin n) : ∃ a, f a = .ok (ys.get i) := by
  have hmem : ys.get i ∈ ys.toList := by simp [Vector.get]
  obtain ⟨a, -, ha⟩ := mem_of_mapM (mapM_toList.mpr h) hmem
  exact ⟨a, ha⟩

end Except

namespace Lifespan.Logged

variable {α β : Type}

theorem ext {x y : Logged α} (he : x.events = y.events) (hr : x.result = y.result) : x = y := by
  cases x
  cases y
  simp_all

theorem bind_pure_self (x : Logged α) : x.bind (fun a => ⟨[], .ok a⟩) = x := by
  cases h : x.result <;> apply Logged.ext <;> simp [Logged.bind, h]

theorem bind_of_ok (a : α) (f : α → Logged β) : (⟨[], .ok a⟩ : Logged α).bind f = f a := by
  simp [Logged.bind]

theorem bind_bind {γ : Type} (x : Logged α) (f : α → Logged β) (g : β → Logged γ) :
    (x.bind f).bind g = x.bind fun a => (f a).bind g := by
  cases hx : x.result with
  | error e => simp [Logged.bind, hx]
  | ok a => cases hf : (f a).result <;> simp [Logged.bind, hx, hf]

instance : LawfulMonad Logged :=
  LawfulMonad.mk' Logged (fun x => bind_pure_self x) (fun a f => bind_of_ok a f)
    (fun x f g => bind_bind x f g)

@[simp] theorem result_pure (a : α) : (pure a : Logged α).result = .ok a := rfl

@[simp] theorem result_throw (e : Error) : (throw e : Logged α).result = .error e := rfl

@[simp] theorem result_report (e : Event) : (report e).result = .ok () := rfl

@[simp] theorem result_within (s : Stage) (x : Logged α) : (within s x).result = x.result := rfl

theorem result_bind (x : Logged α) (f : α → Logged β) :
    (x >>= f).result = x.result >>= fun a => (f a).result := by
  change (Logged.bind x f).result = _
  cases h : x.result <;> simp [Logged.bind, h, Bind.bind, Except.bind]

theorem result_bind_ok {x : Logged α} {f : α → Logged β} {b : β} :
    (x >>= f).result = .ok b ↔ ∃ a, x.result = .ok a ∧ (f a).result = .ok b := by
  rw [result_bind, Except.bind_eq_ok]

theorem result_bind_error {x : Logged α} {f : α → Logged β} {e : Error} :
    (x >>= f).result = .error e ↔ x.result = .error e ∨ ∃ a, x.result = .ok a ∧
    (f a).result = .error e := by
  rw [result_bind, Except.bind_eq_error]

theorem result_map_ok {x : Logged α} {f : α → β} {b : β} :
    (f <$> x).result = .ok b ↔ ∃ a, x.result = .ok a ∧ f a = b := by
  rw [← bind_pure_comp, result_bind_ok]
  simp

theorem result_mapM (f : α → Logged β) (l : List α) :
    (l.mapM f).result = l.mapM fun a => (f a).result := by
  induction l with
  | nil => rfl
  | cons a l ih =>
    rw [List.mapM_cons, List.mapM_cons, result_bind]
    congr 1
    funext b
    rw [result_bind, ih]
    rfl

theorem result_of_toOption {x : Logged α} {a : α} (h : x.result.toOption = some a) :
    x.result = .ok a := by
  cases hx : x.result with
  | error e => simp [hx, Except.toOption] at h
  | ok b => simpa [hx, Except.toOption] using h

theorem exists_of_isOk {x : Logged α} (h : x.result.isOk = true) : ∃ a, x.result = .ok a := by
  cases hx : x.result with
  | error e => simp [hx, Except.isOk, Except.toBool] at h
  | ok a => exact ⟨a, rfl⟩

end Lifespan.Logged
