import Blockwork.Network.Link
import Blockwork.Proofs.Run

/-!
# Computations on the state of a resolver

`Ensures good x P` says that `x` keeps states good, also where it fails, and that its result is
as `P` says where there is one. It is put together along the computation.
-/

namespace Blockwork

variable {σ α β : Type} {good : σ → Prop} {P : α → Prop} {Q : β → Prop}

/-- From a good state the computation leads to a good state, and to a result as said unless it
fails. -/
def Ensures (good : σ → Prop) (x : Resolving σ α) (P : α → Prop) : Prop :=
  ∀ s, good s → good (x.run.run s).2 ∧ ∀ a, (x.run.run s).1 = .ok a → P a

/-! ## Running the first step -/

theorem run_bind_of_error {x : Resolving σ α} {f : α → Resolving σ β} {s t : σ} {e : Fault}
    (h : x.run.run s = (.error e, t)) : (x >>= f).run.run s = (.error e, t) := by
  rw [ExceptT.run_bind, StateT.run_bind, h]
  rfl

theorem run_bind_of_ok {x : Resolving σ α} {f : α → Resolving σ β} {s t : σ} {a : α}
    (h : x.run.run s = (.ok a, t)) : (x >>= f).run.run s = (f a).run.run t := by
  rw [ExceptT.run_bind, StateT.run_bind, h]
  rfl

theorem run_get_bind (f : σ → Resolving σ α) (s : σ) :
    (get >>= f).run.run s = (f s).run.run s :=
  rfl

theorem run_set_bind (t : σ) (f : PUnit → Resolving σ α) (s : σ) :
    (set t >>= f).run.run s = (f ⟨⟩).run.run t :=
  rfl

theorem run_modify_bind (g : σ → σ) (f : PUnit → Resolving σ α) (s : σ) :
    (modify g >>= f).run.run s = (f ⟨⟩).run.run (g s) :=
  rfl

theorem run_liftState_bind (x : StateM σ α) (f : α → Resolving σ β) (s : σ) :
    ((liftM x : Resolving σ α) >>= f).run.run s = (f (x.run s).1).run.run (x.run s).2 :=
  rfl

/-! ## Putting computations together -/

namespace Ensures

theorem pure {a : α} (ha : P a) : Ensures good (Pure.pure a) P :=
  fun _ hs => ⟨hs, fun _ hok => Except.ok.inj hok ▸ ha⟩

theorem error {e : Fault} : Ensures good (throw e) P :=
  fun _ hs => ⟨hs, fun _ hok => nomatch hok⟩

theorem lift {x : Except Fault α} (hx : ∀ a, x = .ok a → P a) : Ensures good (liftM x) P :=
  fun _ hs => ⟨hs, hx⟩

theorem trivial {x : Resolving σ α} : Ensures (fun _ => True) x fun _ => True :=
  fun _ _ => ⟨True.intro, fun _ _ => True.intro⟩

theorem bind {x : Resolving σ α} {f : α → Resolving σ β} (hx : Ensures good x P)
    (hf : ∀ a, P a → Ensures good (f a) Q) : Ensures good (x >>= f) Q := by
  intro s hs
  obtain ⟨ht, ha⟩ := hx s hs
  rw [ExceptT.run_bind, StateT.run_bind]
  rcases hrun : x.run.run s with ⟨e | a, t⟩ <;> rw [hrun] at ht ha
  · exact ⟨ht, fun _ hok => nomatch hok⟩
  · exact hf a (ha a rfl) t ht

theorem mono {P' : α → Prop} {x : Resolving σ α} (hx : Ensures good x P)
    (hP : ∀ a, P a → P' a) : Ensures good x P' :=
  fun s hs => ⟨(hx s hs).1, fun a hok => hP a ((hx s hs).2 a hok)⟩

/-- What a computation ensures in good states and what it ensures in any. -/
theorem and {Q : α → Prop} {x : Resolving σ α} (hP : Ensures good x P)
    (hQ : Ensures (fun _ => True) x Q) : Ensures good x fun a => P a ∧ Q a :=
  fun s hs => ⟨(hP s hs).1, fun a hok => ⟨(hP s hs).2 a hok, (hQ s True.intro).2 a hok⟩⟩

theorem liftState {x : StateM σ α} (hx : ∀ s, good s → good (x.run s).2 ∧ P (x.run s).1) :
    Ensures good (liftM x) P :=
  fun s hs => ⟨(hx s hs).1, fun _ hok => Except.ok.inj hok ▸ (hx s hs).2⟩

theorem get : Ensures good (get : Resolving σ σ) good :=
  fun _ hs => ⟨hs, fun _ hok => Except.ok.inj hok ▸ hs⟩

theorem set {s' : σ} (hs' : good s') : Ensures good (set s' : Resolving σ PUnit) fun _ => True :=
  fun _ _ => ⟨hs', fun _ _ => True.intro⟩

theorem modify {f : σ → σ} (hf : ∀ s, good s → good (f s)) :
    Ensures good (modify f : Resolving σ PUnit) fun _ => True :=
  fun s hs => ⟨hf s hs, fun _ _ => True.intro⟩

theorem mapM {f : α → Resolving σ β} (hf : ∀ a, Ensures good (f a) Q) (l : List α) :
    Ensures good (l.mapM f) fun bs => ∀ b ∈ bs, Q b := by
  induction l with
  | nil =>
    rw [List.mapM_nil]
    exact pure (by simp)
  | cons a l ih =>
    rw [List.mapM_cons]
    exact (hf a).bind fun b hb => ih.bind fun bs hbs =>
      pure (List.forall_mem_cons.2 ⟨hb, hbs⟩)

theorem forall₂ {R : α → β → Prop} {f : α → Resolving σ β} (hf : ∀ a, Ensures good (f a) (R a))
    (l : List α) : Ensures good (l.mapM f) (List.Forall₂ R l) := by
  induction l with
  | nil =>
    rw [List.mapM_nil]
    exact pure .nil
  | cons a l ih =>
    rw [List.mapM_cons]
    exact (hf a).bind fun b hb => ih.bind fun bs hbs => pure (.cons hb hbs)

end Ensures

end Blockwork
