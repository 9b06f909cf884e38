import Blockwork.Method
import Blockwork.Proofs.Run

/-!
# Calls of methods

Which object a call of a method leads to is computed step by step, like a run without an object
(`Method.result_bind`).

A method is guarded if a call that fails changes nothing (`Method.Guarded`). It is if all checks
come before the first change.
-/

namespace Blockwork

namespace Method

variable {σ ε ε' α β : Type} {m : Method σ ε α} {s s' : σ} {e : ε}

/-! ## Answers and results -/

theorem result_eq_ok : m.result s = .ok s' ↔ (∃ a, m.answer s = .ok a) ∧ m.after s = s' := by
  unfold result
  rw [map_eq_ok]
  exact exists_and_right

theorem result_eq_error : m.result s = .error e ↔ m.answer s = .error e := by
  unfold result
  cases m.answer s <;> simp [Except.map]

theorem exists_answer_iff : (∃ a, m.answer s = .ok a) ↔ ∃ s', m.result s = .ok s' := by
  simp only [result_eq_ok, exists_and_left, exists_eq', and_true]

/-- The object after a call that succeeds. -/
theorem after_of_result (h : m.result s = .ok s') : m.after s = s' :=
  (result_eq_ok.1 h).2

theorem result_bind (m : Method σ ε α) (f : α → Method σ ε β) (s : σ) :
    (m >>= f).result s = m.answer s >>= fun a => (f a).result (m.after s) := by
  unfold result answer after
  simp only [ExceptT.run_bind, StateT.run_bind]
  rcases m.run.run s with ⟨e | a, t⟩ <;> rfl

/-- A method that first looks at the object. -/
theorem result_get_bind (f : σ → Method σ ε α) (s : σ) : (get >>= f).result s = (f s).result s :=
  rfl

/-- A method that first does something else than work on the object. -/
theorem result_lift_bind (x : Except ε α) (f : α → Method σ ε β) (s : σ) :
    ((liftM x : Method σ ε α) >>= f).result s = x >>= fun a => (f a).result s := by
  cases x <;> rfl

theorem result_ite {c : Prop} [Decidable c] (m m' : Method σ ε α) (s : σ) :
    (if c then m else m').result s = if c then m.result s else m'.result s :=
  apply_ite (fun m => m.result s) c m m'

theorem result_throw_bind (e : ε) (f : α → Method σ ε β) (s : σ) :
    ((throw e : Method σ ε α) >>= f).result s = .error e :=
  rfl

theorem result_adapt (f : ε → ε') (m : Method σ ε α) (s : σ) :
    result (ExceptT.adapt f m) s = (m.result s).mapError f := by
  have hanswer : answer (ExceptT.adapt f m) s = (m.answer s).mapError f := rfl
  have hafter : after (ExceptT.adapt f m) s = m.after s := rfl
  unfold result
  rw [hanswer, hafter]
  cases m.answer s <;> rfl

/-- Calls one after the other, until one fails. -/
theorem result_mapM {f : α → Method σ ε β} :
    ∀ {l : List α} {s : σ}, (l.mapM f).result s = l.foldlM (fun s a => (f a).result s) s
  | [], _ => rfl
  | a :: l, s => by
    have hrest : ∀ b t, (l.mapM f >>= fun bs => pure (b :: bs)).result t = (l.mapM f).result t :=
      fun b t => by
        rw [result_bind]
        unfold result
        cases (l.mapM f).answer t <;> rfl
    rw [List.mapM_cons, List.foldlM_cons, result_bind]
    simp only [hrest, result_mapM]
    unfold result
    cases (f a).answer s <;> rfl

/-! ## Guarded methods -/

/-- A call that fails leaves the object as it was. -/
def Guarded (m : Method σ ε α) (s : σ) : Prop :=
  ∀ e, m.answer s = .error e → m.after s = s

namespace Guarded

theorem get_bind {f : σ → Method σ ε α} (h : (f s).Guarded s) : (get >>= f).Guarded s :=
  h

theorem throw_bind (e : ε) (f : α → Method σ ε β) :
    ((throw e : Method σ ε α) >>= f).Guarded s :=
  fun _ _ => rfl

theorem lift_bind {x : Except ε α} {f : α → Method σ ε β}
    (h : ∀ a, x = .ok a → (f a).Guarded s) : ((liftM x : Method σ ε α) >>= f).Guarded s := by
  cases x with
  | error e => exact fun _ _ => rfl
  | ok a => exact h a rfl

/-- A method that does not fail. -/
theorem modifyGet (f : σ → α × σ) : (modifyGet f : Method σ ε α).Guarded s :=
  fun _ h => nomatch h

theorem ite {c : Prop} [Decidable c] {m m' : Method σ ε α} (h : c → m.Guarded s)
    (h' : ¬c → m'.Guarded s) : (if c then m else m').Guarded s := by
  split
  · exact h ‹_›
  · exact h' ‹_›

theorem adapt (h : m.Guarded s) (f : ε → ε') : Guarded (ExceptT.adapt f m) s := by
  intro e he
  have hanswer : answer (ExceptT.adapt f m) s = (m.answer s).mapError f := rfl
  rw [hanswer] at he
  cases hm : m.answer s with
  | error e' => exact h e' hm
  | ok a =>
    rw [hm] at he
    cases he

/-- What the method keeps where it succeeds holds after any call. -/
theorem after {P : σ → Prop} (h : m.Guarded s) (hs : P s) (hok : ∀ s', m.result s = .ok s' → P s') :
    P (m.after s) := by
  cases hm : m.answer s with
  | error e => rwa [h e hm]
  | ok a => exact hok _ (result_eq_ok.2 ⟨⟨a, hm⟩, rfl⟩)

end Guarded

end Method

end Blockwork
