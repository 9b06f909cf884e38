import Blockwork.Cause
import Mathlib.Data.List.Basic
import Mathlib.Data.List.Forall2

/-!
# Runs that may fail

The stages of compilation are runs of steps each of which may fail. The lemmas of this file
take a run that succeeds apart: into its two halves (`bind_eq_ok`), into its steps with an
invariant that speaks of the steps still to come (`foldlM_invariant`), or position by position
(`mapM_eq_ok`).
-/

namespace Blockwork

variable {α β γ σ ε : Type}

theorem bind_eq_ok {x : Except ε α} {f : α → Except ε β} {b : β} :
    x >>= f = .ok b ↔ ∃ a, x = .ok a ∧ f a = .ok b := by
  cases x with
  | error e => simp [bind, Except.bind]
  | ok a => simp [bind, Except.bind]

theorem bind_eq_error {x : Except ε α} {f : α → Except ε β} {e : ε} :
    x >>= f = .error e ↔ x = .error e ∨ ∃ a, x = .ok a ∧ f a = .error e := by
  cases x with
  | error e' => simp [bind, Except.bind]
  | ok a => simp [bind, Except.bind]

theorem pure_eq_ok {a b : α} : (pure a : Except ε α) = .ok b ↔ a = b := by
  simp [pure, Except.pure]

/-- A run that starts with a check. -/
theorem ite_error_eq_ok {c : Prop} [Decidable c] {e : ε} {x : Except ε β} {b : β} :
    (if c then .error e else x) = .ok b ↔ ¬c ∧ x = .ok b := by
  by_cases h : c <;> simp [h]

theorem ite_error_bind_eq_ok {c : Prop} [Decidable c] {e : ε} {f : α → Except ε β}
    {x : Except ε β} {b : β} :
    (if c then (.error e : Except ε α) >>= f else x) = .ok b ↔ ¬c ∧ x = .ok b :=
  ite_error_eq_ok

theorem mapError_eq_ok {δ : Type} {x : Except ε α} {f : ε → δ} {a : α} :
    x.mapError f = .ok a ↔ x = .ok a := by
  cases x <;> simp [Except.mapError]

theorem map_eq_ok {x : Except ε α} {f : α → β} {b : β} :
    x.map f = .ok b ↔ ∃ a, x = .ok a ∧ f a = b := by
  cases x <;> simp [Except.map]

theorem toOption_eq_some {x : Except ε α} {a : α} : x.toOption = some a ↔ x = .ok a := by
  cases x <;> simp [Except.toOption]

theorem toOption_eq_none {x : Except ε α} (h : ∀ a, x ≠ .ok a) : x.toOption = none := by
  cases x with
  | error => rfl
  | ok a => exact absurd rfl (h a)

theorem toOption_any {x : Except ε α} {p : α → Bool} :
    x.toOption.any p = true ↔ ∃ a, x = .ok a ∧ p a = true := by
  cases x <;> simp [Except.toOption]

theorem ne_ok_of_isNone {x : Except ε α} (h : x.toOption.isNone = true) (a : α) : x ≠ .ok a := by
  rintro rfl
  cases h

theorem exists_error_of_isNone {x : Except ε α} (h : x.toOption.isNone = true) :
    ∃ e, x = .error e := by
  cases x with
  | error e => exact ⟨e, rfl⟩
  | ok a => cases h

theorem require_eq_ok {x : Breach} {o : Option α} {a : α} :
    require x o = .ok a ↔ o = some a := by
  cases o <;> simp [require]

theorem require_some (x : Breach) (a : α) : require x (some a) = .ok a :=
  rfl

/-- What holds of the state and of the steps still to come is kept by a run if it is kept by
each of its steps. -/
theorem foldlM_invariant {step : σ → α → Except ε σ} (P : List α → σ → Prop)
    (keeps : ∀ a l s s', P (a :: l) s → step s a = .ok s' → P l s') :
    ∀ {l : List α} {s s' : σ}, P l s → l.foldlM step s = .ok s' → P [] s'
  | [], s, s', hs, h => by
    rw [List.foldlM_nil, pure_eq_ok] at h
    exact h ▸ hs
  | a :: l, s, s', hs, h => by
    rw [List.foldlM_cons, bind_eq_ok] at h
    obtain ⟨t, ha, h⟩ := h
    exact foldlM_invariant P keeps (keeps a l s t hs ha) h

/-- What holds of the steps made and of the state is kept by a run if it is kept by each of its
steps. -/
theorem foldlM_invariant_done {step : σ → α → Except ε σ} (P : List α → σ → Prop) {l : List α}
    (keeps : ∀ done a rest s s', l = done ++ a :: rest → P done s → step s a = .ok s' →
      P (done ++ [a]) s')
    {s s' : σ} (hs : P [] s) (h : l.foldlM step s = .ok s') : P l s' := by
  obtain ⟨done, hdone, hP⟩ := foldlM_invariant
    (fun rest s => ∃ done, l = done ++ rest ∧ P done s)
    (fun a rest s s' ⟨done, hdone, hP⟩ hstep =>
      ⟨done ++ [a], by rw [hdone, List.append_cons], keeps done a rest s s' hdone hP hstep⟩)
    ⟨[], rfl, hs⟩ h
  rw [List.append_nil] at hdone
  exact hdone ▸ hP

/-- A run succeeds if each of its steps does, from what the steps before it leave behind. -/
theorem exists_of_foldlM_steps {step : σ → α → Except ε σ} (P : List α → σ → Prop)
    (hstep : ∀ a l s, P (a :: l) s → ∃ s', step s a = .ok s' ∧ P l s') :
    ∀ {l : List α} {s : σ}, P l s → ∃ s', l.foldlM step s = .ok s' ∧ P [] s'
  | [], s, hs => ⟨s, rfl, hs⟩
  | a :: l, s, hs => by
    obtain ⟨t, ha, ht⟩ := hstep a l s hs
    obtain ⟨s', hrun, hs'⟩ := exists_of_foldlM_steps P hstep ht
    refine ⟨s', ?_, hs'⟩
    rw [List.foldlM_cons]
    exact bind_eq_ok.2 ⟨t, ha, hrun⟩

/-- A run that succeeds does so with any steps that succeed where its own do. -/
theorem foldlM_mono {f g : σ → α → Except ε σ}
    (hfg : ∀ a s s', f s a = .ok s' → g s a = .ok s') :
    ∀ {l : List α} {s s' : σ}, l.foldlM f s = .ok s' → l.foldlM g s = .ok s'
  | [], _, _, h => h
  | a :: l, s, s', h => by
    rw [List.foldlM_cons, bind_eq_ok] at h ⊢
    obtain ⟨t, ha, h⟩ := h
    exact ⟨t, hfg a s t ha, foldlM_mono hfg h⟩

/-- A run that succeeds has made each of its steps. -/
theorem exists_step_of_foldlM {f : σ → α → Except ε σ} :
    ∀ {l : List α} {s s' : σ}, l.foldlM f s = .ok s' → ∀ a ∈ l, ∃ t t', f t a = .ok t'
  | [], _, _, _ => by simp
  | a :: l, s, s', h => by
    rw [List.foldlM_cons, bind_eq_ok] at h
    obtain ⟨t, ha, h⟩ := h
    exact List.forall_mem_cons.2 ⟨⟨s, t, ha⟩, exists_step_of_foldlM h⟩

/-- A run that fails has a step that fails, after steps that do not. -/
theorem exists_error_step_of_foldlM {f : σ → α → Except ε σ} {e : ε} :
    ∀ {l : List α} {s : σ}, l.foldlM f s = .error e → ∃ before a after t,
      l = before ++ a :: after ∧ before.foldlM f s = .ok t ∧ f t a = .error e
  | [], _, h => by simp [pure, Except.pure] at h
  | a :: l, s, h => by
    rw [List.foldlM_cons] at h
    cases hstep : f s a with
    | error e' =>
      rw [hstep] at h
      cases h
      exact ⟨[], a, l, s, rfl, rfl, hstep⟩
    | ok t =>
      rw [hstep] at h
      obtain ⟨before, a', after, t', rfl, hrun, herror⟩ := exists_error_step_of_foldlM (s := t) h
      refine ⟨a :: before, a', after, t', rfl, ?_, herror⟩
      rw [List.foldlM_cons]
      exact bind_eq_ok.2 ⟨t, hstep, hrun⟩

theorem foldlM_flatMap (f : α → List β) (step : σ → β → Except ε σ) :
    ∀ (l : List α) (s : σ),
      (l.flatMap f).foldlM step s = l.foldlM (fun s a => (f a).foldlM step s) s
  | [], _ => rfl
  | a :: l, s => by
    rw [List.flatMap_cons, List.foldlM_append, List.foldlM_cons]
    exact congrArg _ (funext fun t => foldlM_flatMap f step l t)

theorem mapM_eq_ok {f : α → Except ε β} :
    ∀ {l : List α} {l' : List β}, l.mapM f = .ok l' ↔ l.map f = l'.map .ok
  | [], l' => by
    rw [List.mapM_nil, pure_eq_ok, List.map_nil, eq_comm, eq_comm (a := []), List.map_eq_nil_iff]
  | a :: l, l' => by
    simp only [List.mapM_cons, bind_eq_ok, pure_eq_ok, mapM_eq_ok, List.map_cons]
    constructor
    · rintro ⟨b, hb, bs, hbs, rfl⟩
      rw [hb, hbs, List.map_cons]
    · intro h
      cases l' with
      | nil => simp at h
      | cons b bs =>
        rw [List.map_cons, List.cons.injEq] at h
        exact ⟨b, h.1, bs, h.2, rfl⟩

theorem mapM_eq_ok_of_forall₂ {f : α → Except ε β} {l : List α} {l' : List β}
    (h : List.Forall₂ (fun a b => f a = .ok b) l l') : l.mapM f = .ok l' := by
  rw [mapM_eq_ok]
  induction h with
  | nil => rfl
  | cons ha _ ih => rw [List.map_cons, List.map_cons, ha, ih]

theorem forall₂_of_mapM_eq_ok {f : α → Except ε β} :
    ∀ {l : List α} {l' : List β}, l.mapM f = .ok l' → List.Forall₂ (fun a b => f a = .ok b) l l'
  | [], _, h => pure_eq_ok.1 h ▸ .nil
  | a :: l, _, h => by
    rw [List.mapM_cons, bind_eq_ok] at h
    obtain ⟨b, hb, h⟩ := h
    obtain ⟨bs, hbs, h⟩ := bind_eq_ok.1 h
    exact pure_eq_ok.1 h ▸ .cons hb (forall₂_of_mapM_eq_ok hbs)

theorem mapM_congr {f g : α → Except ε β} :
    ∀ {l : List α}, (∀ a ∈ l, f a = g a) → l.mapM f = l.mapM g
  | [], _ => rfl
  | a :: l, h => by
    rw [List.mapM_cons, List.mapM_cons, h a List.mem_cons_self,
      mapM_congr fun x hx => h x (List.mem_cons_of_mem a hx)]

theorem forall₂_of_zipIdx {R : α → β → Prop} {l : List α} {l' : List β}
    (h : List.Forall₂ (fun x b => R x.1 b) l.zipIdx l') : List.Forall₂ R l l' := by
  rw [← List.zipIdx_map_fst 0 l]
  exact List.forall₂_map_left_iff.2 h

theorem exists_getElem?_of_forall₂ {R : α → β → Prop} {l : List α} {l' : List β}
    (h : List.Forall₂ R l l') {i : Nat} {a : α} (ha : l[i]? = some a) :
    ∃ b, l'[i]? = some b ∧ R a b := by
  induction h generalizing i with
  | nil => simp at ha
  | @cons x y _ _ hxy _ ih =>
    cases i with
    | zero => exact ⟨y, rfl, Option.some.inj ha ▸ hxy⟩
    | succ i => exact ih ha

theorem exists_mem_of_forall₂ {R : α → β → Prop} {l : List α} {l' : List β}
    (h : List.Forall₂ R l l') {b : β} (hb : b ∈ l') : ∃ a ∈ l, R a b := by
  induction h with
  | nil => simp at hb
  | @cons x _ _ _ hxy _ ih =>
    rcases List.mem_cons.1 hb with rfl | hb
    · exact ⟨x, List.mem_cons_self, hxy⟩
    · obtain ⟨a, ha, hab⟩ := ih hb
      exact ⟨a, List.mem_cons_of_mem x ha, hab⟩

/-- A list is related to some list exactly if each of its elements is related to something. -/
theorem exists_forall₂_iff {R : α → β → Prop} {l : List α} :
    (∃ l', List.Forall₂ R l l') ↔ ∀ a ∈ l, ∃ b, R a b := by
  induction l with
  | nil => simp
  | cons a l ih =>
    rw [List.forall_mem_cons, ← ih]
    constructor
    · rintro ⟨_, _ | ⟨hab, hl⟩⟩
      exact ⟨⟨_, hab⟩, _, hl⟩
    · rintro ⟨⟨b, hab⟩, l', hl⟩
      exact ⟨b :: l', .cons hab hl⟩

/-- Names are new one after the other exactly if they differ from each other and from all that are
taken. -/
theorem nodup_disjoint_cons_iff {a : α} {l seen : List α} :
    (a :: l).Nodup ∧ (a :: l).Disjoint seen ↔ a ∉ seen ∧ l.Nodup ∧ l.Disjoint (a :: seen) := by
  rw [List.nodup_cons, List.disjoint_cons_left, List.disjoint_cons_right]
  tauto

/-- A property that related elements share is the same of both lists. -/
theorem map_eq_of_forall₂ {R : α → β → Prop} {f : β → γ} {g : α → γ} {l : List α} {l' : List β}
    (h : List.Forall₂ R l l') (hR : ∀ a b, R a b → f b = g a) : l'.map f = l.map g := by
  induction h with
  | nil => rfl
  | cons hab _ ih => rw [List.map_cons, List.map_cons, hR _ _ hab, ih]

theorem forall₂_trans {R : α → β → Prop} {S : β → γ → Prop} {T : α → γ → Prop}
    (hRS : ∀ a b c, R a b → S b c → T a c) {l : List α} {l' : List β} (h : List.Forall₂ R l l') :
    ∀ {l'' : List γ}, List.Forall₂ S l' l'' → List.Forall₂ T l l'' := by
  induction h with
  | nil => rintro _ ⟨⟩; exact .nil
  | cons hab _ ih => rintro _ (_ | ⟨hbc, h⟩); exact .cons (hRS _ _ _ hab hbc) (ih h)

theorem zipWith_eq_map {g : α → γ} :
    ∀ {l : List α} {l' : List β}, l'.length = l.length → l.zipWith (fun a _ => g a) l' = l.map g
  | [], _, _ => rfl
  | _ :: _, [], h => nomatch h
  | a :: l, b :: l', h => by
    rw [List.zipWith_cons_cons, List.map_cons, zipWith_eq_map (Nat.succ.inj h)]

/-- A run each of whose steps first looks something up: all of it may be looked up before. -/
theorem foldlM_bind_eq_ok {f : α → Except ε β} {step : σ → β → Except ε σ} :
    ∀ {l : List α} {s s' : σ}, l.foldlM (fun s a => f a >>= step s) s = .ok s' ↔
      ∃ bs, l.mapM f = .ok bs ∧ bs.foldlM step s = .ok s'
  | [], s, s' => by
    rw [List.foldlM_nil, List.mapM_nil]
    exact ⟨fun h => ⟨[], rfl, h⟩, fun ⟨bs, hbs, h⟩ => by rwa [← pure_eq_ok.1 hbs] at h⟩
  | a :: l, s, s' => by
    simp only [List.foldlM_cons, List.mapM_cons, bind_eq_ok, foldlM_bind_eq_ok, pure_eq_ok]
    constructor
    · rintro ⟨t, ⟨b, hb, hstep⟩, bs, hbs, h⟩
      refine ⟨b :: bs, ⟨b, hb, bs, hbs, rfl⟩, ?_⟩
      rw [List.foldlM_cons]
      exact bind_eq_ok.2 ⟨t, hstep, h⟩
    · rintro ⟨_, ⟨b, hb, bs, hbs, rfl⟩, h⟩
      rw [List.foldlM_cons] at h
      obtain ⟨t, hstep, h⟩ := bind_eq_ok.1 h
      exact ⟨t, ⟨b, hb, hstep⟩, bs, hbs, h⟩

/-- A run over a list succeeds if something is found for each element. -/
theorem exists_mapM_eq_ok {f : α → Except ε β} :
    ∀ {l : List α}, (∀ a ∈ l, ∃ b, f a = .ok b) → ∃ l', l.mapM f = .ok l'
  | [], _ => ⟨[], rfl⟩
  | a :: l, h => by
    obtain ⟨b, hb⟩ := h a List.mem_cons_self
    obtain ⟨bs, hbs⟩ := exists_mapM_eq_ok fun x hx => h x (List.mem_cons_of_mem a hx)
    refine ⟨b :: bs, ?_⟩
    rw [List.mapM_cons]
    exact bind_eq_ok.2 ⟨b, hb, bind_eq_ok.2 ⟨bs, hbs, rfl⟩⟩

/-- A run over a list finds something for each element. -/
theorem exists_mem_of_mapM_eq_ok {f : α → Except ε β} {l : List α} {l' : List β}
    (h : l.mapM f = .ok l') {a : α} (ha : a ∈ l) : ∃ b ∈ l', f a = .ok b := by
  have hmem : f a ∈ l'.map Except.ok := mapM_eq_ok.1 h ▸ List.mem_map_of_mem ha
  obtain ⟨b, hb, hok⟩ := List.mem_map.1 hmem
  exact ⟨b, hb, hok.symm⟩

/-- What a run over a list has found comes from one of the elements. -/
theorem mem_of_mapM_eq_ok {f : α → Except ε β} {l : List α} {l' : List β}
    (h : l.mapM f = .ok l') {b : β} (hb : b ∈ l') : ∃ a ∈ l, f a = .ok b := by
  have hmem : Except.ok b ∈ l.map f := mapM_eq_ok.1 h ▸ List.mem_map_of_mem hb
  exact List.mem_map.1 hmem

/-- A run over a list that fails does so at one of the elements. -/
theorem exists_error_of_mapM {f : α → Except ε β} {e : ε} :
    ∀ {l : List α}, l.mapM f = .error e → ∃ a ∈ l, f a = .error e
  | [], h => by cases h
  | a :: l, h => by
    rw [List.mapM_cons] at h
    rcases bind_eq_error.1 h with ha | ⟨b, -, h⟩
    · exact ⟨a, List.mem_cons_self, ha⟩
    · rcases bind_eq_error.1 h with hl | ⟨bs, -, h⟩
      · obtain ⟨x, hx, herror⟩ := exists_error_of_mapM hl
        exact ⟨x, List.mem_cons_of_mem a hx, herror⟩
      · cases h

/-- What a run over a list has found at a position comes from the element there. -/
theorem getElem?_of_mapM_eq_ok {f : α → Except ε β} {l : List α} {l' : List β}
    (h : l.mapM f = .ok l') {i : Nat} {b : β} (hb : l'[i]? = some b) :
    ∃ a, l[i]? = some a ∧ f a = .ok b := by
  have heq := congrArg (fun l => l[i]?) (mapM_eq_ok.1 h)
  simp only [List.getElem?_map, hb, Option.map_some] at heq
  exact Option.map_eq_some_iff.1 heq

end Blockwork
