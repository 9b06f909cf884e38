import Blockwork.Network.Dependency
import Blockwork.Network.Occurrence
import Blockwork.Proofs.Ascending
import Blockwork.Proofs.Multiplicity
import Blockwork.Proofs.Run
import Mathlib.Algebra.Group.Nat.Defs

/-!
# How often inputs may occur

A formal parameter is given `g` times by a declaration, and `n` of the occurrences refer to
inputs of the block. If each of those stands for `k` occurrences there are `g - n + n * k` of
them, and this number has to lie in the multiplicity of the parameter. `Admits` says that it
does wherever an input is referred to, and that an input wired to an output occurs once.

The inference moves, divides and intersects intervals and never computes such a number.
`inferMultiplicities_exact` says that it finds exactly the admitted counts, and that it fails
only if a parameter is misused (`Misused`) or some input admits no occurrence at all.

Occurrences are counted in words. Where no parameter is given more often than a word can tell, no
count overflows and `g` is what is compared. An overflow of `n` is a breach, and a larger `g` counts
as the largest word (`countedTotal`). What is found is exact up to this as long as no count
overflows (`Counted`, `narrows_inferMultiplicities`).
-/

namespace Blockwork

open Multiplicity

/-! ## The condition on counts -/

/-- The number of occurrences that refer to an input. -/
def referring (occurrences : List Parameter) : Nat :=
  occurrences.countP fun p => !p.inputsReferredTo.isEmpty

/-- The number of occurrences if each that refers to an input stands for `k`. -/
def occurrenceTotal (occurrences : List Parameter) (k : Nat) : Nat :=
  (occurrences.length - referring occurrences) + referring occurrences * k

/-- The same number where the occurrences are counted up to the largest word. -/
def countedTotal (occurrences : List Parameter) (k : Nat) : Nat :=
  ((clamp occurrences.length).toNat - referring occurrences) + referring occurrences * k

/-- A formal parameter is given in a way no counts can make good. -/
inductive Misused (f : FormalParameter) (occurrences : List Parameter) : Prop
  /-- An occurrence refers to several inputs, and may not be the only one. -/
  | severalInputs {p : Parameter} {a b : Nat} (hp : p ∈ occurrences)
      (ha : a ∈ p.inputsReferredTo) (hb : b ∈ p.inputsReferredTo) (hab : a ≠ b)
      (hf : ¬f.multiplicity.isSingleton = true)
  /-- Two occurrences refer to different inputs, and their number is not free. -/
  | differentInputs {p q : Parameter} {a : Nat} (hp : p ∈ occurrences) (hq : q ∈ occurrences)
      (hrefers : q.inputsReferredTo ≠ []) (ha : a ∈ p.inputsReferredTo)
      (hab : a ∉ q.inputsReferredTo) (hf : f.multiplicity ≠ .any)
  /-- No occurrence refers to an input, and their number is not allowed. -/
  | wrongNumber (hnone : ∀ p ∈ occurrences, p.inputsReferredTo = [])
      (hf : ¬f.multiplicity.Allows occurrences.length)

namespace Network

variable (n : Network)

/-- Whether an input may be given `k` times. -/
def Admits (input k : Nat) : Prop :=
  (∀ d ∈ n.declarations, ∀ i f, d.specification.interface.parameters[i]? = some f →
    (∃ p ∈ occurrencesOf d i, input ∈ p.inputsReferredTo) →
      f.multiplicity.Allows (occurrenceTotal (occurrencesOf d i) k)) ∧
  ((∃ o ∈ n.outputs, ∃ id, o.target = some (.input id) ∧ id.param = input) → k = 1)

/-- Whether an input may be given `k` times, with occurrences counted up to the largest word. -/
def AdmitsCounted (input k : Nat) : Prop :=
  (∀ d ∈ n.declarations, ∀ i f, d.specification.interface.parameters[i]? = some f →
    (∃ p ∈ occurrencesOf d i, input ∈ p.inputsReferredTo) →
      f.multiplicity.Allows (countedTotal (occurrencesOf d i) k)) ∧
  ((∃ o ∈ n.outputs, ∃ id, o.target = some (.input id) ∧ id.param = input) → k = 1)

/-- No formal parameter is given more often than a word can tell. -/
def OccurrencesFit : Prop :=
  ∀ d ∈ n.declarations, ∀ i, (occurrencesOf d i).length < 2 ^ 32

/-- Those occurrences of each formal parameter that refer to inputs are not too many for a word. -/
def Counted : Prop :=
  ∀ d ∈ n.declarations, ∀ i f, d.specification.interface.parameters[i]? = some f →
    referring (occurrencesOf d i) < 2 ^ 32

/-- A parameter is misused, or an input may not be given at all. -/
def Overconstrained : Prop :=
  (∃ d ∈ n.declarations, ∃ i f, d.specification.interface.parameters[i]? = some f ∧
    Misused f (occurrencesOf d i)) ∨
  ∃ input < n.params.length, ∀ k, 1 ≤ k → ¬n.Admits input k

/-- The order holds every declaration once, and only inputs that exist are referred to. -/
structure Resolved : Prop where
  order : n.order.Perm n.positions
  slots : ∀ d ∈ n.declarations, ∀ p ∈ d.parameters, ∀ input ∈ p.inputsReferredTo,
    input < n.params.length
  outputs : ∀ o ∈ n.outputs, ∀ id, o.target = some (.input id) → id.param < n.params.length

end Network

/-! ## Narrowing -/

/-- Whether the multiplicities allow `k` occurrences of an input. -/
def Permits (result : List Multiplicity) (input k : Nat) : Prop :=
  ∃ m, result[input]? = some m ∧ m.Allows k

/-- Every multiplicity allows an occurrence. -/
def Viable (result : List Multiplicity) : Prop :=
  ∀ input < result.length, ∃ k, 1 ≤ k ∧ Permits result input k

/-- What may come of multiplicities that are narrowed to the counts with a property: just
these counts, or a rejection. There is a rejection if nothing can make up for `bad`, or if an
input is left without an occurrence. -/
inductive Narrows (result : List Multiplicity) (bad : Prop) (good : Nat → Nat → Prop) :
    Except Fault (List Multiplicity) → Prop
  | ok {narrowed : List Multiplicity} (hbad : ¬bad) (hlength : narrowed.length = result.length)
      (hpermits : ∀ input k, Permits narrowed input k ↔ Permits result input k ∧ good input k)
      (hviable : Viable narrowed) : Narrows result bad good (.ok narrowed)
  | rejected {e : Diagnostic}
      (h : bad ∨ ∃ input < result.length, ∀ k, 1 ≤ k → Permits result input k →
        ¬good input k) : Narrows result bad good (.error (.rejected e))

namespace Narrows

variable {result : List Multiplicity} {bad bad' : Prop} {good good' : Nat → Nat → Prop}
  {r : Except Fault (List Multiplicity)}

theorem congr (h : Narrows result bad good r) (hbad : bad ↔ bad')
    (hgood : ∀ input k, good input k ↔ good' input k) : Narrows result bad' good' r := by
  cases h with
  | ok hb hlength hpermits hviable =>
    refine .ok (mt hbad.2 hb) hlength (fun input k => ?_) hviable
    rw [hpermits, hgood]
  | rejected h =>
    refine .rejected (h.imp hbad.1 ?_)
    rintro ⟨input, hlt, h⟩
    exact ⟨input, hlt, fun k hk hp => mt (hgood input k).2 (h k hk hp)⟩

theorem unchanged (h : Viable result) : Narrows result False (fun _ _ => True) (.ok result) :=
  .ok not_false rfl (fun _ _ => (and_iff_left trivial).symm) h

/-- Narrowing first by one step and then by another. -/
theorem bind {f : List Multiplicity → Except Fault (List Multiplicity)}
    (h : Narrows result bad good r)
    (hf : ∀ narrowed, narrowed.length = result.length → Viable narrowed →
      Narrows narrowed bad' good' (f narrowed)) :
    Narrows result (bad ∨ bad') (fun input k => good input k ∧ good' input k) (r >>= f) := by
  cases h with
  | rejected h =>
    refine .rejected (h.imp Or.inl ?_)
    rintro ⟨input, hlt, h⟩
    exact ⟨input, hlt, fun k hk hp hg => h k hk hp hg.1⟩
  | @ok narrowed hbad hlength hpermits hviable =>
    have hnext := hf narrowed hlength hviable
    show Narrows _ _ _ (f narrowed)
    generalize f narrowed = next at hnext
    cases hnext with
    | ok hbad' hlength' hpermits' hviable' =>
      refine .ok (fun h => h.elim hbad hbad') (hlength'.trans hlength) (fun input k => ?_)
        hviable'
      rw [hpermits', hpermits, and_assoc]
    | rejected h =>
      refine .rejected (h.imp Or.inr ?_)
      rintro ⟨input, hlt, h⟩
      exact ⟨input, hlength ▸ hlt, fun k hk hp hg =>
        h k hk ((hpermits input k).2 ⟨hp, hg.1⟩) hg.2⟩

/-- A run of narrowing steps narrows by all of them. -/
theorem foldlM {α : Type} {step : List Multiplicity → α → Except Fault (List Multiplicity)}
    {bad : α → Prop} {good : α → Nat → Nat → Prop} {size : Nat} :
    ∀ {l : List α} {result : List Multiplicity},
      (∀ a ∈ l, ∀ result, result.length = size → Viable result →
        Narrows result (bad a) (good a) (step result a)) →
      result.length = size → Viable result →
      Narrows result (∃ a ∈ l, bad a) (fun input k => ∀ a ∈ l, good a input k)
        (l.foldlM step result)
  | [], result, _, _, hviable => by
    refine (unchanged hviable).congr ?_ ?_ <;> simp
  | a :: l, result, hstep, hlength, hviable => by
    rw [List.foldlM_cons]
    have hfirst := hstep a (by simp) result hlength hviable
    have hrest := fun narrowed (hn : narrowed.length = result.length) (hv : Viable narrowed) =>
      foldlM (l := l) (fun b hb => hstep b (List.mem_cons_of_mem a hb))
        (hn.trans hlength) hv
    refine (hfirst.bind hrest).congr ?_ ?_ <;> simp

/-- Narrowing that succeeds leaves nothing to reject. -/
theorem not_error {narrowed : List Multiplicity} {e : Fault}
    (h : Narrows result bad good (.ok narrowed)) : ¬Narrows result bad good (.error e) := by
  rintro (_ | hrejected)
  obtain ⟨hbad, hlength, hpermits, hviable⟩ := h
  rcases hrejected with hrejected | ⟨input, hi, hrejected⟩
  · exact hbad hrejected
  · obtain ⟨k, hk, hp⟩ := hviable input (hlength ▸ hi)
    obtain ⟨hp, hgood⟩ := (hpermits input k).1 hp
    exact hrejected k hk hp hgood

/-- Multiplicities that are narrowed to the same counts are the same. -/
theorem eq_of_ok {narrowed narrowed' : List Multiplicity}
    (h : Narrows result bad good (.ok narrowed)) (h' : Narrows result bad good (.ok narrowed')) :
    narrowed = narrowed' := by
  obtain ⟨-, hlength, hpermits, hviable⟩ := h
  obtain ⟨-, hlength', hpermits', -⟩ := h'
  refine List.ext_getElem (hlength.trans hlength'.symm) fun input hi hi' => ?_
  obtain ⟨k, -, m, hm, hk⟩ := hviable input hi
  have hallows : ∀ k, narrowed[input].Allows k ↔ narrowed'[input].Allows k := fun k => by
    have hiff := (hpermits input k).trans (hpermits' input k).symm
    simpa [Permits, hi, hi'] using hiff
  rw [List.getElem?_eq_getElem hi, Option.some.injEq] at hm
  exact eq_of_allows (hm ▸ hk) hallows

/-- What comes of narrowing to the same counts is the same, but for the message of a rejection. -/
theorem toOption_eq {r' : Except Fault (List Multiplicity)} (h : Narrows result bad good r)
    (h' : Narrows result bad good r') : r.toOption = r'.toOption := by
  cases r with
  | ok narrowed =>
    cases r' with
    | ok narrowed' => exact congrArg some (eq_of_ok h h')
    | error => exact absurd h' (not_error h)
  | error =>
    cases r' with
    | ok narrowed' => exact absurd h (not_error h')
    | error => rfl

end Narrows

/-! ## The steps of the inference -/

namespace Network

variable (n : Network)

/-- Restricting one input. -/
theorem narrows_restrict (location : Location) (allowed : Multiplicity)
    {result : List Multiplicity} {input : Nat} (hinput : input < result.length)
    (hviable : Viable result) :
    Narrows result False (fun i k => i = input → allowed.Allows k)
      (n.restrict location allowed result input) := by
  obtain ⟨m, hm⟩ : ∃ m, result[input]? = some m := ⟨_, List.getElem?_eq_getElem hinput⟩
  have hpermits : ∀ k, Permits result input k ↔ m.Allows k := fun k => by simp [Permits, hm]
  unfold restrict
  rw [hm, require_some]
  show Narrows _ _ _ (if (m.intersect allowed).isEmpty || (m.intersect allowed).upper == 0 then _
    else _)
  split
  · rename_i hempty
    refine .rejected (Or.inr ⟨input, hinput, fun k hk hp hg => ?_⟩)
    have : ¬∃ k, 1 ≤ k ∧ (m.intersect allowed).Allows k := by
      rw [exists_pos_allows_iff, not_not]
      exact hempty
    exact this ⟨k, hk, allows_intersect.2 ⟨(hpermits k).1 hp, hg rfl⟩⟩
  · rename_i hsome
    have hset : ∀ i k, Permits (result.set input (m.intersect allowed)) i k ↔
        Permits result i k ∧ (i = input → allowed.Allows k) := by
      intro i k
      by_cases hi : i = input
      · subst hi
        rw [hpermits]
        simp [Permits, hinput, allows_intersect]
      · simp [Permits, hi, Ne.symm hi]
    refine .ok not_false (List.length_set ..) hset fun i hi => ?_
    rw [List.length_set] at hi
    by_cases heq : i = input
    · subst heq
      obtain ⟨k, hk, ha⟩ := exists_pos_allows_iff.2 hsome
      have ha := allows_intersect.1 ha
      exact ⟨k, hk, (hset i k).2 ⟨(hpermits k).2 ha.1, fun _ => ha.2⟩⟩
    · obtain ⟨k, hk, hp⟩ := hviable i hi
      exact ⟨k, hk, (hset i k).2 ⟨hp, fun h => absurd h heq⟩⟩

/-- Restricting several inputs. -/
theorem narrows_restrict_all (location : Location) (allowed : Multiplicity)
    {result : List Multiplicity} {inputs : List Nat}
    (hinputs : ∀ input ∈ inputs, input < result.length) (hviable : Viable result) :
    Narrows result False (fun i k => i ∈ inputs → allowed.Allows k)
      (inputs.foldlM (n.restrict location allowed) result) := by
  refine (Narrows.foldlM (fun input hi r hr hv =>
    n.narrows_restrict location allowed (hr ▸ hinputs input hi) hv) rfl hviable).congr ?_ ?_
  · simp
  · intro i k
    exact ⟨fun h hi => h i hi rfl, fun h input hi heq => h (heq ▸ hi)⟩

/-- What comes of collecting the inputs of occurrences, from the inputs `u` on. -/
inductive Collects (f : FormalParameter) (u : InputUse) (occurrences : List Parameter) :
    Except Fault InputUse → Prop
  | ok {v : InputUse}
      (single : ∀ p ∈ occurrences, (ascending p.inputsReferredTo).length ≤ 1 ∨
        f.multiplicity.isSingleton = true)
      (same : f.multiplicity = .any ∨ (u.inputs = [] ∨ v.inputs = u.inputs) ∧
        ∀ p ∈ occurrences, p.inputsReferredTo ≠ [] → ascending p.inputsReferredTo = v.inputs)
      (inputs : ∀ i, i ∈ v.inputs ↔ i ∈ u.inputs ∨ ∃ p ∈ occurrences, i ∈ p.inputsReferredTo)
      (count : v.count.toNat = u.count.toNat + referring occurrences) :
      Collects f u occurrences (.ok v)
  | several {e : Diagnostic} {p : Parameter} (hp : p ∈ occurrences)
      (h : 1 < (ascending p.inputsReferredTo).length) (hf : ¬f.multiplicity.isSingleton = true) :
      Collects f u occurrences (.error (.rejected e))
  | different {e : Diagnostic} {p : Parameter} {inputs : List Nat} (hp : p ∈ occurrences)
      (h : p.inputsReferredTo ≠ []) (hinputs : inputs ≠ [])
      (hne : ascending p.inputsReferredTo ≠ inputs) (hf : f.multiplicity ≠ .any)
      (hfrom : inputs = u.inputs ∨ ∃ q ∈ occurrences, inputs = ascending q.inputsReferredTo) :
      Collects f u occurrences (.error (.rejected e))
  | overflow (h : 2 ^ 32 ≤ u.count.toNat + referring occurrences) :
      Collects f u occurrences (.error (.breach .countOverflow))

theorem referring_cons (p : Parameter) (occurrences : List Parameter) :
    referring (p :: occurrences) = referring [p] + referring occurrences := by
  unfold referring
  rw [← List.singleton_append, List.countP_append]

/-- An occurrence that refers to inputs is counted, unless there are too many. -/
theorem collects_next {f : FormalParameter} {u : InputUse} {p : Parameter} {inputs : List Nat}
    (hp : p.inputsReferredTo ≠ [])
    (hok : ∀ v : InputUse, v.inputs = inputs → v.count.toNat = u.count.toNat + referring [p] →
      Collects f u [p] (.ok v)) : Collects f u [p] (u.next inputs) := by
  have hone : referring [p] = 1 := by simp [referring, List.isEmpty_eq_false_iff.2 hp]
  unfold InputUse.next
  split
  · rename_i hmax
    refine .overflow ?_
    rw [hmax, hone]
    exact Nat.le_refl (2 ^ 32)
  · rename_i hmax
    refine hok _ rfl ?_
    have hlt := u.count.toNat_lt
    have hne : u.count.toNat ≠ 4294967295 := fun h => hmax (UInt32.toNat_inj.1 h)
    rw [hone, UInt32.toNat_add, UInt32.toNat_one]
    omega

/-- One more occurrence. -/
theorem collects_addOccurrence (d : Declaration) (f : FormalParameter) (u : InputUse)
    (p : Parameter) : Collects f u [p] (addOccurrence d f u p) := by
  unfold addOccurrence
  split
  · rename_i hnil
    have hnil := ascending_eq_nil.1 hnil
    refine .ok ?_ (Or.inr ⟨Or.inr rfl, ?_⟩) ?_ ?_ <;> simp [hnil, referring, ascending]
  rename_i here hne
  have hne : p.inputsReferredTo ≠ [] := mt ascending_eq_nil.2 hne
  split
  · rename_i h
    exact .several (by simp) h.1 h.2
  rename_i hsingle
  have hsingle : ∀ q ∈ [p], (ascending q.inputsReferredTo).length ≤ 1 ∨
      f.multiplicity.isSingleton = true := by
    simp only [List.mem_singleton, forall_eq]
    by_cases hs : f.multiplicity.isSingleton = true
    · exact Or.inr hs
    · exact Or.inl (Nat.le_of_not_lt fun h => hsingle ⟨h, hs⟩)
  split
  · rename_i hfree
    refine collects_next hne fun v hv hcount => .ok hsingle ?_ (by simp [hv]) hcount
    refine hfree.imp isUnconstrained_iff.1 fun hempty => ⟨Or.inl hempty, ?_⟩
    simp [hv, hempty, ascending_of_pairwise (pairwise_ascending _)]
  rename_i hbound
  have hbound := not_or.1 hbound
  have hf : f.multiplicity ≠ .any := mt isUnconstrained_iff.2 hbound.1
  split
  · rename_i hdiff
    exact .different (by simp) hne hbound.2 (Ne.symm hdiff) hf (Or.inl rfl)
  · rename_i hsame
    have hsame := not_not.1 hsame
    refine collects_next hne fun v hv hcount =>
      .ok hsingle (Or.inr ⟨Or.inr hv, by simp [hv, hsame]⟩) (fun i => ?_) hcount
    simp [hv, hsame]

/-- Collecting from one occurrence and then from the rest. -/
theorem Collects.cons {f : FormalParameter} {u : InputUse} {p : Parameter}
    {occurrences : List Parameter} {r : Except Fault InputUse}
    {next : InputUse → Except Fault InputUse} (h : Collects f u [p] r)
    (hnext : ∀ v, Collects f v occurrences (next v)) :
    Collects f u (p :: occurrences) (r >>= next) := by
  cases h with
  | several hp h hf => exact .several (List.mem_singleton.1 hp ▸ List.mem_cons_self) h hf
  | different hp h hinputs hne hf hfrom =>
    refine .different (List.mem_singleton.1 hp ▸ List.mem_cons_self) h hinputs hne hf
      (hfrom.imp id ?_)
    rintro ⟨q, hq, h⟩
    exact ⟨q, List.mem_singleton.1 hq ▸ List.mem_cons_self, h⟩
  | overflow h =>
    refine .overflow ?_
    rw [referring_cons]
    omega
  | @ok v single same inputs count =>
    have h := hnext v
    show Collects _ _ _ (next v)
    generalize next v = r at h
    simp only [List.mem_singleton, forall_eq, exists_eq_left] at single same inputs
    cases h with
    | several hp h hf => exact .several (List.mem_cons_of_mem _ hp) h hf
    | @different _ q _ hp h hinputs hne hf hfrom =>
      refine .different (List.mem_cons_of_mem _ hp) h hinputs hne hf ?_
      rcases hfrom with rfl | ⟨q, hq, h⟩
      · obtain ⟨i, hi⟩ := List.exists_mem_of_ne_nil _ hinputs
        obtain ⟨hu, hp⟩ := same.resolve_left hf
        rcases hu with hu | hu
        · rw [inputs, hu] at hi
          have hi : i ∈ p.inputsReferredTo := by simpa using hi
          exact Or.inr ⟨p, List.mem_cons_self, (hp (List.ne_nil_of_mem hi)).symm⟩
        · exact Or.inl hu
      · exact Or.inr ⟨q, List.mem_cons_of_mem _ hq, h⟩
    | overflow h =>
      refine .overflow ?_
      rw [referring_cons]
      omega
    | @ok w single' same' inputs' count' =>
      refine .ok (List.forall_mem_cons.2 ⟨single, single'⟩) ?_ (fun i => ?_) ?_
      · by_cases hf : f.multiplicity = .any
        · exact Or.inl hf
        obtain ⟨hu, hp⟩ := same.resolve_left hf
        obtain ⟨hv, hps⟩ := same'.resolve_left hf
        refine Or.inr ⟨?_, List.forall_mem_cons.2 ⟨fun hne => ?_, hps⟩⟩
        · rcases hu with hu | hu
          · exact Or.inl hu
          · exact hu ▸ hv
        · have heq := hp hne
          rw [heq]
          exact (hv.resolve_left (heq ▸ mt ascending_eq_nil.1 hne)).symm
      · rw [inputs', inputs]
        simp only [List.mem_cons, exists_eq_or_imp, or_assoc]
      · rw [count', count, referring_cons p occurrences, Nat.add_assoc]

theorem collects (d : Declaration) (f : FormalParameter) :
    ∀ (occurrences : List Parameter) (u : InputUse),
      Collects f u occurrences (occurrences.foldlM (addOccurrence d f) u)
  | [], u => .ok (by simp) (Or.inr ⟨Or.inr rfl, by simp⟩) (by simp) (by simp [referring])
  | p :: occurrences, u => by
    rw [List.foldlM_cons]
    exact (collects_addOccurrence d f u p).cons fun v => collects d f occurrences v

/-! ## One formal parameter -/

section Formal

variable {f : FormalParameter} {occurrences : List Parameter}

/-- A rejection while inputs are collected reports a misuse. -/
theorem misused_of_collects {e : Diagnostic}
    (h : Collects f ⟨[], 0⟩ occurrences (.error (.rejected e))) : Misused f occurrences := by
  cases h with
  | @several _ p hp h hf =>
    have hnodup := nodup_ascending p.inputsReferredTo
    have hmem : ∀ i, i ∈ ascending p.inputsReferredTo ↔ i ∈ p.inputsReferredTo := fun _ =>
      mem_ascending
    generalize ascending p.inputsReferredTo = l at h hnodup hmem
    match l, h with
    | a :: b :: _, _ =>
      have hab : a ≠ b := by
        rintro rfl
        simp at hnodup
      exact .severalInputs hp ((hmem a).1 (by simp)) ((hmem b).1 (by simp)) hab hf
  | @different _ p inputs hp h hne hdiff hf hfrom =>
    obtain ⟨q, hq, rfl⟩ := hfrom.resolve_left hne
    have hne := mt ascending_eq_nil.2 hne
    by_cases hall : ∀ a ∈ p.inputsReferredTo, a ∈ q.inputsReferredTo
    · obtain ⟨a, ha⟩ : ∃ a, ¬(a ∈ q.inputsReferredTo → a ∈ p.inputsReferredTo) := by
        by_contra hsub
        simp only [not_exists, not_not] at hsub
        exact hdiff (ascending_congr fun i => ⟨hall i, hsub i⟩)
      rw [Classical.not_imp] at ha
      exact .differentInputs hq hp h ha.1 ha.2 hf
    · simp only [not_forall] at hall
      obtain ⟨a, ha, hab⟩ := hall
      exact .differentInputs hp hq hne ha hab hf

/-- Occurrences that are collected are misused in their number only. -/
theorem not_misused_of_collects {u : InputUse} (h : Collects f ⟨[], 0⟩ occurrences (.ok u))
    (hnumber : u.inputs = [] → f.multiplicity.Allows occurrences.length) :
    ¬Misused f occurrences := by
  cases h with
  | ok single same inputs count =>
    intro h
    cases h with
    | @severalInputs p a b hp ha hb hab hf =>
      have hlen := (single p hp).resolve_right hf
      have ha := mem_ascending.2 ha
      have hb := mem_ascending.2 hb
      match ascending p.inputsReferredTo, hlen, ha, hb with
      | [c], _, ha, hb => exact hab ((List.mem_singleton.1 ha).trans (List.mem_singleton.1 hb).symm)
    | @differentInputs p q a hp hq hrefers ha hab hf =>
      have hsame := (same.resolve_left hf).2
      have hpq := (hsame p hp (List.ne_nil_of_mem ha)).trans (hsame q hq hrefers).symm
      exact hab (mem_ascending.1 (hpq ▸ mem_ascending.2 ha))
    | wrongNumber hnone hf =>
      refine hf (hnumber (List.eq_nil_iff_forall_not_mem.2 fun i hi => ?_))
      rcases (inputs i).1 hi with hi | ⟨p, hp, hi⟩
      · simp at hi
      · simp [hnone p hp] at hi

end Formal

/-- The check of a number of occurrences, which may be larger than any word. -/
theorem checkOccurrences_clamp (d : Declaration) (f : FormalParameter) (count : Nat) :
    (checkOccurrences d f (clamp count) = .ok () ∧ f.multiplicity.Allows count) ∨
      (∃ e, checkOccurrences d f (clamp count) = .error (.rejected e)) ∧
        ¬f.multiplicity.Allows count := by
  have hl := f.multiplicity.lower.toNat_lt
  have hu := f.multiplicity.upper.toNat_lt
  have hw := toNat_clamp_natCast count
  rw [allows_iff]
  unfold checkOccurrences
  split
  · rename_i h
    rw [UInt32.lt_iff_toNat_lt, hw] at h
    exact Or.inr ⟨⟨_, rfl⟩, by omega⟩
  rename_i hlow
  rw [UInt32.lt_iff_toNat_lt, hw] at hlow
  split
  · rename_i h
    rw [UInt32.lt_iff_toNat_lt, hw] at h
    exact Or.inr ⟨⟨_, rfl⟩, by omega⟩
  · rename_i h
    rw [UInt32.lt_iff_toNat_lt, hw] at h
    exact Or.inl ⟨rfl, by omega⟩

theorem referring_le_length (occurrences : List Parameter) :
    referring occurrences ≤ occurrences.length :=
  List.countP_le_length

theorem referring_pos_iff {occurrences : List Parameter} :
    0 < referring occurrences ↔ ∃ p ∈ occurrences, p.inputsReferredTo ≠ [] := by
  simp [referring, List.countP_pos_iff]

/-- The occurrences of one formal parameter narrow the counts of the inputs they refer to, unless
there are too many to be counted. -/
theorem narrows_inferFormal (d : Declaration) {f : FormalParameter} (occurrences : List Parameter)
    (hinputs : ∀ p ∈ occurrences, ∀ input ∈ p.inputsReferredTo, input < n.params.length)
    (hcounted : referring occurrences < 2 ^ 32)
    {result : List Multiplicity} (hlength : result.length = n.params.length)
    (hviable : Viable result) :
    Narrows result (Misused f occurrences)
      (fun i k => (∃ p ∈ occurrences, i ∈ p.inputsReferredTo) →
        f.multiplicity.Allows (countedTotal occurrences k))
      (n.inferFormal d result f occurrences) := by
  have hcollects := collects d f occurrences ⟨[], 0⟩
  unfold inferFormal
  generalize occurrences.foldlM (addOccurrence d f) ⟨[], 0⟩ = r at hcollects
  cases r with
  | error e =>
    cases e with
    | rejected e => exact .rejected (Or.inl (misused_of_collects hcollects))
    | breach b =>
      cases hcollects with
      | overflow h => exact absurd h (by simpa using hcounted)
  | ok u =>
    have hgood := not_misused_of_collects hcollects
    obtain ⟨hmem, hcount⟩ : (∀ i, i ∈ u.inputs ↔ ∃ p ∈ occurrences, i ∈ p.inputsReferredTo) ∧
        u.count.toNat = referring occurrences := by
      cases hcollects with
      | ok single same inputs count =>
        exact ⟨fun i => (inputs i).trans (by simp), count.trans (Nat.zero_add _)⟩
    show Narrows _ _ _ (if u.inputs = [] then _ else _)
    split
    · rename_i hnil
      have hnone : ∀ p ∈ occurrences, p.inputsReferredTo = [] := fun p hp =>
        List.eq_nil_iff_forall_not_mem.2 fun i hi => by
          have := (hmem i).2 ⟨p, hp, hi⟩
          simp [hnil] at this
      rcases checkOccurrences_clamp d f occurrences.length with ⟨hok, hallows⟩ | ⟨⟨e, he⟩, hnot⟩
      · rw [hok]
        refine (Narrows.unchanged hviable).congr ?_ fun i k => ?_
        · exact iff_of_false not_false (hgood fun _ => hallows)
        · refine iff_of_true trivial ?_
          rintro ⟨p, hp, hi⟩
          simp [hnone p hp] at hi
      · rw [he]
        exact .rejected (Or.inl (.wrongNumber hnone hnot))
    · rename_i hsome
      have hpos : 0 < u.count := by
        obtain ⟨i, hi⟩ := List.exists_mem_of_ne_nil _ hsome
        obtain ⟨p, hp, hi⟩ := (hmem i).1 hi
        rw [UInt32.lt_iff_toNat_lt, hcount]
        exact referring_pos_iff.2 ⟨p, hp, List.ne_nil_of_mem hi⟩
      have hle : u.count.toNat ≤ (clamp occurrences.length).toNat := by
        have := referring_le_length occurrences
        rw [toNat_clamp_natCast, hcount]
        omega
      have hshift : (u.count.toNat : Int) - (clamp occurrences.length).toNat =
          -(((clamp occurrences.length).toNat - u.count.toNat : Nat) : Int) := by omega
      obtain ⟨m, hm, hdivided⟩ := (f.multiplicity.shift
        ((u.count.toNat : Int) - (clamp occurrences.length).toNat)).exists_divide? hpos
      have hallows : ∀ k, m.Allows k ↔
          f.multiplicity.Allows (countedTotal occurrences k) := fun k => by
        rw [hdivided, hshift, allows_shift, countedTotal, hcount, Nat.add_comm]
      rw [hm, require_some]
      show Narrows _ _ _ (u.inputs.foldlM (n.restrict d.location m) result)
      refine (n.narrows_restrict_all d.location m (fun i hi => ?_) hviable).congr ?_ fun i k => ?_
      · obtain ⟨p, hp, hi⟩ := (hmem i).1 hi
        exact hlength ▸ hinputs p hp i hi
      · exact iff_of_false not_false (hgood fun h => absurd h hsome)
      · rw [hmem, hallows]

/-- Occurrences that are inferred from have been counted. -/
theorem referring_lt_of_inferFormal {d : Declaration} {f : FormalParameter}
    {occurrences : List Parameter} {result result' : List Multiplicity}
    (h : n.inferFormal d result f occurrences = .ok result') : referring occurrences < 2 ^ 32 := by
  unfold inferFormal at h
  obtain ⟨u, hu, -⟩ := bind_eq_ok.1 h
  have hcollects := collects d f occurrences ⟨[], 0⟩
  rw [hu] at hcollects
  cases hcollects with
  | ok single same inputs count =>
    have hlt := u.count.toNat_lt
    have hcount : u.count.toNat = 0 + referring occurrences := count
    omega

/-! ## All declarations and outputs -/

variable {n}

/-- A declaration narrows the counts by all its formal parameters. -/
theorem narrows_inferDeclaration (hn : n.Resolved) (hcounted : n.Counted) {position : Nat}
    {d : Declaration} (hd : n.declaration? position = some d) {result : List Multiplicity}
    (hlength : result.length = n.params.length) (hviable : Viable result) :
    Narrows result
      (∃ i f, d.specification.interface.parameters[i]? = some f ∧ Misused f (occurrencesOf d i))
      (fun input k => ∀ i f, d.specification.interface.parameters[i]? = some f →
        (∃ p ∈ occurrencesOf d i, input ∈ p.inputsReferredTo) →
          f.multiplicity.Allows (countedTotal (occurrencesOf d i) k))
      (n.inferDeclaration result position) := by
  have hmem : d ∈ n.declarations := List.mem_of_getElem? hd
  unfold inferDeclaration
  rw [hd, require_some]
  show Narrows _ _ _ (List.foldlM _ result d.specification.interface.parameters.zipIdx)
  have hstep := fun (a : FormalParameter × Nat)
      (ha : a ∈ d.specification.interface.parameters.zipIdx) (result : List Multiplicity)
      (hl : result.length = n.params.length) (hv : Viable result) =>
    n.narrows_inferFormal d (f := a.1) (occurrencesOf d a.2)
      (fun p hp => hn.slots d hmem p (List.mem_of_mem_filter hp))
      (hcounted d hmem a.2 a.1 (List.mk_mem_zipIdx_iff_getElem?.1 ha)) hl hv
  refine (Narrows.foldlM hstep hlength hviable).congr ?_ fun input k => ?_
  · simp only [Prod.exists, List.mk_mem_zipIdx_iff_getElem?]
    exact exists_comm
  · simp only [Prod.forall, List.mk_mem_zipIdx_iff_getElem?]
    exact forall_comm

/-- An output of the block narrows the count of the input it is wired to. -/
theorem narrows_inferOutput (hn : n.Resolved) {o : BlockOutput} (ho : o ∈ n.outputs)
    {result : List Multiplicity} (hlength : result.length = n.params.length)
    (hviable : Viable result) :
    Narrows result False
      (fun input k => (∃ id, o.target = some (.input id) ∧ id.param = input) → k = 1)
      (n.inferOutput result o) := by
  unfold inferOutput
  split
  · rename_i id htarget
    have hlt := hlength ▸ hn.outputs o ho id htarget
    refine (n.narrows_restrict n.location .one hlt hviable).congr Iff.rfl fun input k => ?_
    rw [allows_one]
    constructor
    · rintro h ⟨id', hid', rfl⟩
      rw [htarget, Option.some.injEq, Target.input.injEq] at hid'
      exact h (hid' ▸ rfl)
    · rintro h rfl
      exact h ⟨id, htarget, rfl⟩
  · rename_i hnone
    refine (Narrows.unchanged hviable).congr Iff.rfl fun input k => ?_
    refine iff_of_true trivial ?_
    rintro ⟨id, hid, -⟩
    exact absurd hid (hnone id)

/-- The declarations of a resolved network are those in its order. -/
theorem Resolved.exists_order_iff (hn : n.Resolved) {P : Declaration → Prop} :
    (∃ i ∈ n.order, ∃ d, n.declaration? i = some d ∧ P d) ↔ ∃ d ∈ n.declarations, P d := by
  constructor
  · rintro ⟨i, -, d, hd, h⟩
    exact ⟨d, List.mem_of_getElem? hd, h⟩
  · rintro ⟨d, hd, h⟩
    obtain ⟨i, hi⟩ := List.getElem?_of_mem hd
    have hlt : i < n.declarations.length := (List.getElem?_eq_some_iff.1 hi).1
    exact ⟨i, hn.order.mem_iff.2 (List.mem_range.2 hlt), d, hi, h⟩

/-- All declarations and outputs narrow the counts to the admitted ones. -/
theorem narrows_inferMultiplicities (hn : n.Resolved)
    (hany : ∀ p ∈ n.params, p.multiplicity = .any) (hcounted : n.Counted) :
    Narrows (n.params.map BlockParameter.multiplicity)
      (∃ d ∈ n.declarations, ∃ i f, d.specification.interface.parameters[i]? = some f ∧
        Misused f (occurrencesOf d i))
      n.AdmitsCounted n.inferMultiplicities := by
  have hlength : (n.params.map BlockParameter.multiplicity).length = n.params.length :=
    List.length_map _
  have hviable : Viable (n.params.map BlockParameter.multiplicity) := fun input hi => by
    rw [hlength] at hi
    refine ⟨1, Nat.le_refl 1, .any, ?_, allows_any 1⟩
    rw [List.getElem?_map, List.getElem?_eq_getElem hi, Option.map_some,
      hany _ (List.getElem_mem hi)]
  have hdeclaration : ∀ position ∈ n.order, ∀ result : List Multiplicity,
      result.length = n.params.length → Viable result →
        Narrows result
          (∃ d, n.declaration? position = some d ∧ ∃ i f,
            d.specification.interface.parameters[i]? = some f ∧ Misused f (occurrencesOf d i))
          (fun input k => ∀ d, n.declaration? position = some d →
            ∀ i f, d.specification.interface.parameters[i]? = some f →
              (∃ p ∈ occurrencesOf d i, input ∈ p.inputsReferredTo) →
                f.multiplicity.Allows (countedTotal (occurrencesOf d i) k))
          (n.inferDeclaration result position) := by
    intro position hp result hl hv
    have hlt : position < n.declarations.length := List.mem_range.1 (hn.order.mem_iff.1 hp)
    have hd : n.declaration? position = some n.declarations[position] :=
      List.getElem?_eq_getElem hlt
    refine (narrows_inferDeclaration hn hcounted hd hl hv).congr ?_ ?_
    · simp [hd]
    · simp [hd]
  have hfirst := Narrows.foldlM hdeclaration hlength hviable
  have hnext := fun narrowed (hl : narrowed.length = _) (hv : Viable narrowed) =>
    Narrows.foldlM (l := n.outputs) (fun o ho result hlen hv => narrows_inferOutput hn ho hlen hv)
      (hl.trans hlength) hv
  refine (hfirst.bind hnext).congr ?_ fun input k => ?_
  · rw [hn.exists_order_iff]
    simp
  · refine and_congr ?_ ?_
    · have := hn.exists_order_iff (P := fun d => ¬∀ i f,
        d.specification.interface.parameters[i]? = some f →
          (∃ p ∈ occurrencesOf d i, input ∈ p.inputsReferredTo) →
            f.multiplicity.Allows (countedTotal (occurrencesOf d i) k))
      rw [← not_iff_not]
      simpa only [not_forall, exists_prop] using this
    · exact ⟨fun h ⟨o, ho, hid⟩ => h o ho hid, fun h o ho hid => h ⟨o, ho, hid⟩⟩

/-- Where multiplicities are inferred, all occurrences have been counted. -/
theorem counted_of_inferMultiplicities (hn : n.Resolved) {result : List Multiplicity}
    (h : n.inferMultiplicities = .ok result) : n.Counted := by
  intro d hd i f hf
  obtain ⟨position, hposition, d', hd', rfl⟩ := hn.exists_order_iff.2 ⟨d, hd, rfl⟩
  unfold inferMultiplicities at h
  obtain ⟨narrowed, hnarrowed, -⟩ := bind_eq_ok.1 h
  obtain ⟨before, after, hstep⟩ := exists_step_of_foldlM hnarrowed position hposition
  unfold inferDeclaration at hstep
  rw [hd', require_some] at hstep
  obtain ⟨before, after, hstep⟩ :=
    exists_step_of_foldlM hstep (f, i) (List.mk_mem_zipIdx_iff_getElem?.2 hf)
  exact n.referring_lt_of_inferFormal hstep

/-! ## Main result -/

/-- What fits into words is counted. -/
theorem OccurrencesFit.counted (h : n.OccurrencesFit) : n.Counted := fun d hd i _ _ =>
  (referring_le_length _).trans_lt (h d hd i)

theorem OccurrencesFit.admitsCounted_iff (h : n.OccurrencesFit) {input k : Nat} :
    n.AdmitsCounted input k ↔ n.Admits input k := by
  have htotal : ∀ d ∈ n.declarations, ∀ i,
      countedTotal (occurrencesOf d i) k = occurrenceTotal (occurrencesOf d i) k := fun d hd i => by
    have := h d hd i
    rw [countedTotal, toNat_clamp_natCast, occurrenceTotal]
    omega
  refine and_congr_left' (forall₂_congr fun d hd => forall₂_congr fun i f => ?_)
  rw [htotal d hd i]

/-- The inferred multiplicities hold exactly the counts that are admitted, and the inference
fails, by a rejection, exactly if a parameter is misused or some input may not be given at all.
Occurrences are counted in words of 32 bits, so no formal parameter may be given `2 ^ 32` times or
more. Where addresses have 32 bits, no list is as long. -/
theorem inferMultiplicities_exact (hn : n.Resolved)
    (hany : ∀ p ∈ n.params, p.multiplicity = .any) (hfit : n.OccurrencesFit) :
    (∀ result, n.inferMultiplicities = .ok result → result.length = n.params.length ∧
      ∀ input m, result[input]? = some m → ∀ k : UInt32,
        m.contains k = true ↔ n.Admits input k.toNat) ∧
    ((∃ result, n.inferMultiplicities = .ok result) ↔ ¬n.Overconstrained) ∧
    ((∃ e, n.inferMultiplicities = .error (.rejected e)) ↔ n.Overconstrained) := by
  have hany' : ∀ input < n.params.length, ∀ k,
      Permits (n.params.map BlockParameter.multiplicity) input k := fun input hi k => by
    refine ⟨.any, ?_, allows_any k⟩
    rw [List.getElem?_map, List.getElem?_eq_getElem hi, Option.map_some,
      hany _ (List.getElem_mem hi)]
  have hnarrows := (narrows_inferMultiplicities hn hany hfit.counted).congr Iff.rfl
    fun input k => hfit.admitsCounted_iff
  generalize n.inferMultiplicities = r at hnarrows
  cases hnarrows with
  | @ok narrowed hbad hlength hpermits hviable =>
    rw [List.length_map] at hlength
    have hgood : ¬n.Overconstrained := by
      rintro (h | ⟨input, hi, h⟩)
      · exact hbad h
      · obtain ⟨k, hk, hp⟩ := hviable input (hlength.symm ▸ hi)
        exact h k hk ((hpermits input k).1 hp).2
    refine ⟨fun result h => ?_, iff_of_true ⟨_, rfl⟩ hgood, iff_of_false (by simp) hgood⟩
    obtain rfl := Except.ok.inj h
    refine ⟨hlength, fun input m hm k => ?_⟩
    have hi : input < n.params.length := hlength ▸ (List.getElem?_eq_some_iff.1 hm).1
    have := hpermits input k.toNat
    rw [and_iff_right (hany' input hi _)] at this
    rw [contains_iff, ← this]
    simp [Permits, hm]
  | @rejected e h =>
    have hover : n.Overconstrained := by
      refine h.imp id ?_
      rintro ⟨input, hi, h⟩
      rw [List.length_map] at hi
      exact ⟨input, hi, fun k hk => h k hk (hany' input hi k)⟩
    exact ⟨fun result h => by simp at h, iff_of_false (by simp) (not_not.2 hover),
      iff_of_true ⟨e, rfl⟩ hover⟩

/-! ## The number of multiplicities -/

/-- A run keeps the length of a list if its steps do. -/
theorem length_of_foldlM {α β ε : Type} {step : List β → α → Except ε (List β)}
    (hstep : ∀ a result result', step result a = .ok result' → result'.length = result.length)
    {l : List α} {result result' : List β} (h : l.foldlM step result = .ok result') :
    result'.length = result.length :=
  foldlM_invariant (fun _ r => r.length = result.length)
    (fun a _ _ _ hr hok => (hstep a _ _ hok).trans hr) rfl h

theorem length_restrict {location : Location} {allowed : Multiplicity} {input : Nat}
    {result result' : List Multiplicity}
    (h : n.restrict location allowed result input = .ok result') :
    result'.length = result.length := by
  unfold restrict at h
  obtain ⟨current, -, h⟩ := bind_eq_ok.1 h
  dsimp only at h
  split at h
  · simp [reject] at h
  · rw [← pure_eq_ok.1 h, List.length_set]

theorem length_inferFormal {d : Declaration} {f : FormalParameter} {occurrences : List Parameter}
    {result result' : List Multiplicity} (h : n.inferFormal d result f occurrences = .ok result') :
    result'.length = result.length := by
  unfold inferFormal at h
  obtain ⟨u, -, h⟩ := bind_eq_ok.1 h
  split at h
  · obtain ⟨-, -, h⟩ := bind_eq_ok.1 h
    rw [pure_eq_ok.1 h]
  · obtain ⟨m, -, h⟩ := bind_eq_ok.1 h
    exact length_of_foldlM (fun _ _ _ => length_restrict) h

theorem length_inferDeclaration {position : Nat} {result result' : List Multiplicity}
    (h : n.inferDeclaration result position = .ok result') : result'.length = result.length := by
  unfold inferDeclaration at h
  obtain ⟨d, -, h⟩ := bind_eq_ok.1 h
  exact length_of_foldlM (fun _ _ _ => length_inferFormal) h

theorem length_inferOutput {o : BlockOutput} {result result' : List Multiplicity}
    (h : n.inferOutput result o = .ok result') : result'.length = result.length := by
  unfold inferOutput at h
  split at h
  · exact length_restrict h
  · rw [Except.ok.inj h]

/-- There is a multiplicity for each input. -/
theorem length_inferMultiplicities {result : List Multiplicity}
    (h : n.inferMultiplicities = .ok result) : result.length = n.params.length := by
  unfold inferMultiplicities at h
  obtain ⟨narrowed, hnarrowed, h⟩ := bind_eq_ok.1 h
  rw [length_of_foldlM (fun _ _ _ => length_inferOutput) h,
    length_of_foldlM (fun _ _ _ => length_inferDeclaration) hnarrowed, List.length_map]

/-- A parameter that takes one to three occurrences is given a literal and the first input,
and the second input is wired to an output. -/
def oneGiven : Network where
  name := "b"
  location := .unknown
  doc := none
  types := .root
  declarations := [{
    name := "d"
    specification := ⟨"Some", false,
      ⟨[⟨"in", ⟨1, 3⟩, [⟨"a", ClassType.object, none, [], none⟩], false, none⟩], []⟩⟩
    location := .unknown
    doc := none
    parameters := [
      ⟨"in", 0, [⟨"a", none, .literal (.text "x"), ClassType.object, none, []⟩]⟩,
      ⟨"in", 0, [⟨"a", some "@p.x", .reference (.input ⟨0, 0⟩), ClassType.object, none, []⟩]⟩]
    outputs := [] }]
  order := [0]
  params := [⟨"p", .any, [⟨"x", "@p.x", ClassType.object, [], none⟩], none⟩,
    ⟨"q", .any, [⟨"z", "@q.z", ClassType.object, [], none⟩], none⟩]
  outputs := [⟨"out", "@q.z", some (.input ⟨1, 0⟩), none, none⟩]

theorem oneGiven_resolved : oneGiven.Resolved where
  order := by decide
  slots := by decide
  outputs := by
    rintro o ho id hid
    obtain rfl := List.mem_singleton.1 ho
    obtain rfl : ⟨1, 0⟩ = id := by simpa using hid
    decide

theorem oneGiven_occurrencesFit : oneGiven.OccurrencesFit := by
  intro d hd i
  obtain rfl := List.mem_singleton.1 hd
  exact List.length_filter_le _ _ |>.trans_lt (by decide)

theorem inferMultiplicities_oneGiven :
    oneGiven.Resolved ∧ (∀ p ∈ oneGiven.params, p.multiplicity = .any) ∧
      oneGiven.OccurrencesFit ∧ oneGiven.inferMultiplicities = .ok [⟨0, 2⟩, .one] ∧
      ¬oneGiven.Overconstrained ∧ ∀ k : UInt32, (⟨0, 2⟩ : Multiplicity).contains k = true ↔ oneGiven.Admits 0 k.toNat := by
  have hany : ∀ p ∈ oneGiven.params, p.multiplicity = .any := by decide
  have hinfer : oneGiven.inferMultiplicities = .ok [⟨0, 2⟩, .one] := by rfl
  have hexact := inferMultiplicities_exact oneGiven_resolved hany oneGiven_occurrencesFit
  exact ⟨oneGiven_resolved, hany, oneGiven_occurrencesFit, hinfer, hexact.2.1.1 ⟨_, hinfer⟩,
    (hexact.1 _ hinfer).2 0 _ rfl⟩

end Network

end Blockwork
