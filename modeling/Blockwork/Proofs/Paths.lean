import Blockwork.Proofs.Preparation
import Mathlib.Data.Set.Card

/-!
# Paths over open pipelines

What is given for an input of the block flows to whatever refers to it, and over the pipelines left
open to what refers to the outputs they lead into. A `Path` is the list of the pipelines on the way,
and an input is carried to the targets at the ends of its paths.

Going through everything that a target flows to (`visit`) meets what refers to the ends of all
paths, each path once. `walk` lists the paths with the referrers at their ends, a visit that
succeeds is a run over this list (`foldlM_walk`), and as no path is too long for it, the list is
complete (`length_lt_of_visit`).
-/

namespace Blockwork

@[simp] theorem Binding.target?_eq_some {b : Binding} {t : Target} :
    b.target? = some t ↔ b = .reference t := by
  cases b <;> simp [target?]

namespace Network

variable {n : Network} {t u v : Target} {x : SlotId × Nat} {l : List (SlotId × Nat)} {r : Referrer}

/-! ## Referrers -/

theorem slot_mem_referrers (hn : n.Forward) {id : SlotId} :
    .slot id ∈ n.referrers t ↔ ∃ s, n.slot? id = some s ∧ s.binding = .reference t := by
  simp [referrers, hn.mem_slots]

/-- What an output of the block is wired to. -/
def wired? (n : Network) (o : Nat) : Option Target :=
  n.outputs[o]?.bind BlockOutput.target

theorem blockOutput_mem_referrers {o : Nat} :
    .blockOutput o ∈ n.referrers t ↔ n.wired? o = some t := by
  simp [referrers, wired?, List.mk_mem_zipIdx_iff_getElem?, Option.bind_eq_some_iff]

/-- What refers to a target is listed once each. -/
theorem nodup_referrers (hn : n.Forward) (t : Target) : (n.referrers t).Nodup := by
  unfold referrers
  refine List.nodup_append.2 ⟨?_, ?_, fun a ha b hb hab => ?_⟩
  · rw [List.nodup_iff_pairwise_ne, List.pairwise_map]
    have hslots : n.slots.Pairwise fun x y => x.1 ≠ y.1 :=
      List.pairwise_map.1 (List.nodup_iff_pairwise_ne.1 hn.nodup_slotIds)
    exact (hslots.filter _).imp fun hxy heq => hxy (Referrer.slot.inj heq)
  · rw [List.nodup_iff_pairwise_ne, List.pairwise_map]
    exact ((Declaration.pairwise_zipIdx n.outputs).filter _).imp fun hxy heq =>
      hxy (Referrer.blockOutput.inj heq)
  · obtain ⟨_, -, rfl⟩ := List.mem_map.1 ha
    obtain ⟨_, -, rfl⟩ := List.mem_map.1 hb
    cases hab

/-! ## Paths -/

/-- The output a pipeline leads into. -/
def pipelineEnd (x : SlotId × Nat) : Target :=
  .output ⟨x.1.declaration, x.2⟩

/-- The pipeline starts at an attribute that refers to the target, and leads into an output. -/
def Pipeline (n : Network) (t : Target) (x : SlotId × Nat) : Prop :=
  ∃ s, n.slot? x.1 = some s ∧ s.binding = .reference t ∧ x.2 ∈ s.feeds

/-- The pipelines lead from one target to another, each from where the one before it leads. -/
def Path (n : Network) : Target → List (SlotId × Nat) → Target → Prop
  | t, [], u => t = u
  | t, x :: l, u => n.Pipeline t x ∧ Path n (pipelineEnd x) l u

/-- A path with one more pipeline at its end. -/
theorem path_concat : n.Path t (l ++ [x]) u ↔
    ∃ v, n.Path t l v ∧ n.Pipeline v x ∧ pipelineEnd x = u := by
  induction l generalizing t with
  | nil => simp [Path]
  | cons y l ih =>
    simp only [List.cons_append, Path, ih]
    constructor
    · rintro ⟨hy, v, hl, hx, hu⟩
      exact ⟨v, ⟨hy, hl⟩, hx, hu⟩
    · rintro ⟨v, ⟨hy, hl⟩, hx, hu⟩
      exact ⟨hy, v, hl, hx, hu⟩

/-- What flows depends on the declarations only. -/
theorem path_congr {m : Network} (h : m.declarations = n.declarations) : m.Path = n.Path := by
  funext t l u
  induction l generalizing t with
  | nil => rfl
  | cons x l ih =>
    simp only [Path, Pipeline, slot?_congr h, ih]

/-- What is given for the input flows to the target. -/
def Carries (n : Network) (input : InputId) (t : Target) : Prop :=
  ∃ l, n.Path (.input input) l t

theorem carries_congr {m : Network} (h : m.declarations = n.declarations) :
    m.Carries = n.Carries := by
  funext input t
  unfold Carries
  rw [path_congr h]

/-- Nothing flows to an input but what is given for it. -/
@[simp] theorem carries_input {input input' : InputId} :
    n.Carries input (.input input') ↔ input = input' := by
  constructor
  · rintro ⟨l, hl⟩
    rcases List.eq_nil_or_concat l with rfl | ⟨l, x, rfl⟩
    · exact Target.input.inj hl
    · rw [List.concat_eq_append] at hl
      obtain ⟨_, -, -, hend⟩ := path_concat.1 hl
      cases hend
  · rintro rfl
    exact ⟨[], rfl⟩

/-- What flows to an output comes over one of its pipelines. -/
theorem carries_output {input : InputId} {id : OutputId} : n.Carries input (.output id) ↔
    ∃ p a s t, n.slot? ⟨id.declaration, p, a⟩ = some s ∧ s.binding = .reference t ∧
      id.output ∈ s.feeds ∧ n.Carries input t := by
  constructor
  · rintro ⟨l, hl⟩
    rcases List.eq_nil_or_concat l with rfl | ⟨l, x, rfl⟩
    · cases hl
    · rw [List.concat_eq_append] at hl
      obtain ⟨t, hpath, ⟨s, hs, ht, hk⟩, hend⟩ := path_concat.1 hl
      obtain rfl := Target.output.inj hend
      exact ⟨x.1.param, x.1.attr, s, t, hs, ht, hk, l, hpath⟩
  · rintro ⟨p, a, s, t, hs, ht, hk, l, hl⟩
    exact ⟨l ++ [(⟨id.declaration, p, a⟩, id.output)],
      path_concat.2 ⟨t, hl, ⟨s, hs, ht, hk⟩, rfl⟩⟩

/-! ## The walk -/

/-- The pipelines that start at a referrer. -/
def pipelines (n : Network) : Referrer → List (SlotId × Nat)
  | .slot id => (((n.slot? id).map Slot.feeds).getD []).map fun k => (id, k)
  | .blockOutput _ => []

theorem fedOutputs_eq (n : Network) (r : Referrer) :
    n.fedOutputs r = (n.pipelines r).map pipelineEnd := by
  cases r <;> simp [fedOutputs, pipelines, pipelineEnd, Function.comp_def]

theorem mem_pipelines : x ∈ n.pipelines r ↔
    r = .slot x.1 ∧ ∃ s, n.slot? x.1 = some s ∧ x.2 ∈ s.feeds := by
  cases r with
  | blockOutput => simp [pipelines]
  | slot id =>
    obtain ⟨id', k⟩ := x
    simp only [pipelines, List.mem_map, Prod.mk.injEq, Referrer.slot.injEq]
    constructor
    · rintro ⟨k', hk, rfl, rfl⟩
      cases hs : n.slot? id with
      | none => simp [hs] at hk
      | some s => exact ⟨rfl, s, rfl, by simpa [hs] using hk⟩
    · rintro ⟨rfl, s, hs, hk⟩
      exact ⟨k, by simpa [hs] using hk, rfl, rfl⟩

/-- The pipelines that start at what refers to a target. -/
theorem pipeline_iff (hn : n.Forward) :
    n.Pipeline t x ↔ ∃ r ∈ n.referrers t, x ∈ n.pipelines r := by
  constructor
  · rintro ⟨s, hs, ht, hk⟩
    exact ⟨.slot x.1, (slot_mem_referrers hn).2 ⟨s, hs, ht⟩, mem_pipelines.2 ⟨rfl, s, hs, hk⟩⟩
  · rintro ⟨r, hr, hx⟩
    obtain ⟨rfl, s, hs, hk⟩ := mem_pipelines.1 hx
    obtain ⟨s', hs', ht⟩ := (slot_mem_referrers hn).1 hr
    obtain rfl := Option.some.inj (hs.symm.trans hs')
    exact ⟨s, hs, ht, hk⟩

/-- The paths from a target that are shorter than the bound, with what refers to their ends, in the
order in which a visit meets it. -/
def walk (n : Network) : Nat → Target → List (List (SlotId × Nat) × Referrer)
  | 0, _ => []
  | bound + 1, t => (n.referrers t).flatMap fun r =>
    ([], r) :: (n.pipelines r).flatMap fun x =>
      (walk n bound (pipelineEnd x)).map fun y => (x :: y.1, y.2)

theorem mem_walk (hn : n.Forward) : ∀ {bound : Nat} {t : Target} {l : List (SlotId × Nat)},
    (l, r) ∈ n.walk bound t ↔ l.length < bound ∧ ∃ u, n.Path t l u ∧ r ∈ n.referrers u
  | 0, _, _ => by simp [walk]
  | bound + 1, t, [] => by simp [walk, Path]
  | bound + 1, t, x :: l => by
    have hmem : (x :: l, r) ∈ n.walk (bound + 1) t ↔
        (∃ r ∈ n.referrers t, x ∈ n.pipelines r) ∧ (l, r) ∈ n.walk bound (pipelineEnd x) := by
      simp only [walk, List.mem_flatMap, List.mem_cons, List.mem_map, Prod.mk.injEq,
        List.cons.injEq, reduceCtorEq, false_and, false_or]
      constructor
      · rintro ⟨r', hr', y, hy, ⟨l', r''⟩, hl, ⟨rfl, rfl⟩, rfl⟩
        exact ⟨⟨r', hr', hy⟩, hl⟩
      · rintro ⟨⟨r', hr', hx⟩, hl⟩
        exact ⟨r', hr', x, hx, (l, r), hl, ⟨rfl, rfl⟩, rfl⟩
    rw [hmem, ← pipeline_iff hn, mem_walk hn, List.length_cons, Nat.add_lt_add_iff_right]
    simp only [Path]
    constructor
    · rintro ⟨hx, hl, u, hu, hr⟩
      exact ⟨hl, u, ⟨hx, hu⟩, hr⟩
    · rintro ⟨hl, u, ⟨hx, hu⟩, hr⟩
      exact ⟨hx, hl, u, hu, hr⟩

/-- Each path is met once with each referrer at its end. -/
theorem nodup_walk (hn : n.Prepared) (bound : Nat) (t : Target) : (n.walk bound t).Nodup := by
  induction bound generalizing t with
  | zero => exact List.nodup_nil
  | succ bound ih =>
    unfold walk
    refine List.nodup_flatMap.2 ⟨fun r _ => ?_,
      (nodup_referrers hn.forward t).imp fun {r r'} hne y hy hy' => hne ?_⟩
    · rw [List.nodup_cons, List.nodup_flatMap]
      refine ⟨by simp, fun x _ => (ih _).map fun y z hyz => ?_, ?_⟩
      · obtain ⟨hl, hr⟩ := Prod.mk.inj hyz
        exact Prod.ext (List.cons.inj hl).2 hr
      · refine List.Pairwise.imp (R := (· ≠ ·)) (fun {x x'} hne y hy hy' => hne ?_) ?_
        · obtain ⟨_, -, rfl⟩ := List.mem_map.1 hy
          obtain ⟨_, -, heq⟩ := List.mem_map.1 hy'
          exact (List.cons.inj (Prod.mk.inj heq).1).1.symm
        · cases r with
          | blockOutput => exact List.Pairwise.nil
          | slot id =>
            unfold pipelines
            rw [List.pairwise_map]
            cases hs : n.slot? id with
            | none => exact List.Pairwise.nil
            | some s =>
              exact (hn.ordered id s hs).imp fun hlt heq => hlt.ne (Prod.mk.inj heq).2
    · -- The first pipeline of a path starts at the referrer, and without one that is its end.
      have hfirst : ∀ r, y ∈ ([], r) :: (n.pipelines r).flatMap (fun x =>
          (n.walk bound (pipelineEnd x)).map fun y => (x :: y.1, y.2)) →
            r = (y.1.head?.map fun x => .slot x.1).getD y.2 := by
        intro r hy
        rcases List.mem_cons.1 hy with rfl | hy
        · rfl
        · obtain ⟨x, hx, hy⟩ := List.mem_flatMap.1 hy
          obtain ⟨_, -, rfl⟩ := List.mem_map.1 hy
          exact (mem_pipelines.1 hx).1
      exact (hfirst r hy).trans (hfirst r' hy').symm

/-! ## Visits -/

variable {σ : Type} {step : σ → Referrer → Except Fault σ}

/-- A visit is a run over the walk. -/
theorem foldlM_walk : ∀ {bound : Nat} {t : Target} {s s' : σ},
    n.visit n.referrerTable step bound t s = .ok s' →
      (n.walk bound t).foldlM (fun s y => step s y.2) s = .ok s'
  | 0, _, _, _, h => by simp [visit] at h
  | bound + 1, t, s, s', h => by
    unfold visit at h
    rw [referrersFrom_referrerTable] at h
    rw [walk, foldlM_flatMap]
    refine foldlM_mono (fun r s s' hr => ?_) h
    obtain ⟨s₁, hstep, hr⟩ := bind_eq_ok.1 hr
    rw [fedOutputs_eq, List.foldlM_map] at hr
    refine bind_eq_ok.2 ⟨s₁, hstep, ?_⟩
    rw [foldlM_flatMap]
    refine foldlM_mono (fun x s s' hx => ?_) hr
    rw [List.foldlM_map]
    exact foldlM_walk hx

/-- A visit that succeeds has met the end of every path. -/
theorem length_lt_of_visit (hn : n.Forward) :
    ∀ {bound : Nat} {t u : Target} {s s' : σ} {l : List (SlotId × Nat)},
      n.visit n.referrerTable step bound t s = .ok s' → n.Path t l u → l.length < bound
  | 0, _, _, _, _, _, h, _ => by simp [visit] at h
  | bound + 1, _, _, _, _, [], _, _ => Nat.zero_lt_succ bound
  | bound + 1, t, u, s, s', x :: l, h, hl => by
    obtain ⟨hx, hl⟩ := hl
    obtain ⟨r, hr, hx⟩ := (pipeline_iff hn).1 hx
    unfold visit at h
    rw [referrersFrom_referrerTable] at h
    obtain ⟨_, _, hr⟩ := exists_step_of_foldlM h r hr
    obtain ⟨_, -, hr⟩ := bind_eq_ok.1 hr
    rw [fedOutputs_eq] at hr
    obtain ⟨_, _, hvisit⟩ := exists_step_of_foldlM hr _ (List.mem_map_of_mem hx)
    exact Nat.succ_lt_succ (length_lt_of_visit hn hvisit hl)

end Network

end Blockwork
