import Blockwork.Network.Dependency
import Blockwork.Proofs.Run
import Mathlib.Data.List.Nodup
import Mathlib.Data.Prod.Lex
import Mathlib.Data.String.Basic

/-!
# Schedules

The sorting counts, for each declaration, the dependencies it still waits for. `executeFrom` says
without counters which declarations come in which order: of those that depend on executed ones
only, the first goes next. Both are the same (`execute_schedule`), as the counter of a declaration
is the number of its dependencies that are not yet executed (`Schedule.Counts`). So no counter is
lowered below zero, and each declaration gets ready once.
-/

namespace Blockwork

namespace Network

variable {n : Network}

theorem dependsOn_iff {d e : Nat} : n.dependsOn d e = true ↔
    ∃ decl, n.declaration? d = some decl ∧ e ∈ decl.referredTo := by
  unfold dependsOn
  rw [Option.any_eq_true_iff_get]
  cases n.declaration? d <;> simp

theorem mem_positions {d : Nat} : d ∈ n.positions ↔ d < n.declarations.length :=
  List.mem_range

theorem exists_declaration?_of_mem_positions {d : Nat} (h : d ∈ n.positions) :
    ∃ decl, n.declaration? d = some decl :=
  ⟨_, List.getElem?_eq_getElem (mem_positions.1 h)⟩

theorem mem_dependencies {d e : Nat} :
    e ∈ n.dependencies d ↔ e ∈ n.positions ∧ n.dependsOn d e = true := by
  unfold dependencies
  rw [List.mem_filter, dependsOn_iff]
  cases n.declaration? d <;> simp

theorem mem_positions_of_dependsOn {d e : Nat} (h : n.dependsOn d e = true) :
    d ∈ n.positions := by
  obtain ⟨decl, hd, -⟩ := dependsOn_iff.1 h
  exact mem_positions.2 (List.getElem?_eq_some_iff.1 hd).1

theorem nodup_dependencies (n : Network) (d : Nat) : (n.dependencies d).Nodup :=
  List.nodup_range.filter _

/-- Each declaration of the list is a dependent of another if that is one of its dependencies. -/
theorem mem_dependents {d e : Nat} (he : e ∈ n.positions) :
    d ∈ n.dependents e ↔ e ∈ n.dependencies d := by
  unfold dependents
  rw [List.mem_filter, mem_dependencies]
  exact ⟨fun h => ⟨he, h.2⟩, fun h => ⟨mem_positions_of_dependsOn h.2, h.2⟩⟩

theorem nodup_dependents (n : Network) (e : Nat) : (n.dependents e).Nodup :=
  List.nodup_range.filter _

/-! ## The first declaration of a list -/

/-- A declaration with its name, in the order in which names come first. -/
def rank (n : Network) (d : Nat) : String ×ₗ Nat :=
  toLex (n.declarationName d, d)

theorem before_iff {d e : Nat} : n.before d e = true ↔ n.rank d < n.rank e := by
  simp [before, rank, Prod.Lex.toLex_lt_toLex]

theorem rank_injective (n : Network) : Function.Injective n.rank := fun _ _ h =>
  congrArg Prod.snd (toLex.injective h)

theorem rank_earlier (d e : Nat) : n.rank (n.earlier d e) = min (n.rank d) (n.rank e) := by
  unfold earlier
  split
  · rename_i h
    exact (min_eq_right (before_iff.1 h).le).symm
  · rename_i h
    exact (min_eq_left (not_lt.1 (mt before_iff.2 h))).symm

theorem rank_foldl_earlier_le (l : List Nat) :
    ∀ a : Nat, ∀ e ∈ a :: l, n.rank (l.foldl n.earlier a) ≤ n.rank e := by
  induction l with
  | nil => simp
  | cons b l ih =>
    intro a e he
    have hstart := ih (n.earlier a b) _ List.mem_cons_self
    rw [rank_earlier] at hstart
    rw [List.foldl_cons]
    rcases List.mem_cons.1 he with rfl | he
    · exact hstart.trans (min_le_left _ _)
    · rcases List.mem_cons.1 he with rfl | he
      · exact hstart.trans (min_le_right _ _)
      · exact ih _ e (List.mem_cons_of_mem _ he)

theorem first?_eq_some_iff {l : List Nat} {d : Nat} :
    n.first? l = some d ↔ d ∈ l ∧ ∀ e ∈ l, n.rank d ≤ n.rank e := by
  have hleast : ∀ x, n.first? l = some x → ∀ e ∈ l, n.rank x ≤ n.rank e := fun x hx => by
    cases l with
    | nil => simp
    | cons a l =>
      obtain rfl := Option.some.inj hx
      exact rank_foldl_earlier_le l a
  constructor
  · exact fun h => ⟨n.first?_mem h, hleast d h⟩
  · rintro ⟨hmem, hd⟩
    cases hx : n.first? l with
    | none =>
      cases l with
      | nil => cases hmem
      | cons => cases hx
    | some x =>
      have hrank := le_antisymm (hleast x hx d hmem) (hd x (n.first?_mem hx))
      rw [n.rank_injective hrank]

theorem not_mem_of_first?_eq_none {l : List Nat} (h : n.first? l = none) (d : Nat) : d ∉ l := by
  cases l with
  | nil => exact List.not_mem_nil
  | cons => cases h

/-- Which declaration comes first depends on the members of the list alone. -/
theorem first?_congr {l l' : List Nat} (h : ∀ d, d ∈ l ↔ d ∈ l') : n.first? l = n.first? l' := by
  refine Option.ext fun d => ?_
  rw [first?_eq_some_iff, first?_eq_some_iff, h]
  exact and_congr_right fun _ => forall_congr' fun e => imp_congr_left (h e)

/-! ## The order without counters -/

/-- Whether a declaration depends on executed declarations only. -/
def isReady (n : Network) (done : List Nat) (d : Nat) : Bool :=
  (n.dependencies d).all done.contains

/-- The declarations of `left` in the order in which they are executed after those in
`done`, up to the point where none is ready. -/
def executeFrom (n : Network) (done left : List Nat) : List Nat :=
  match _h : n.first? (left.filter (n.isReady done)) with
  | none => []
  | some d => d :: executeFrom n (d :: done) (left.erase d)
termination_by left.length
decreasing_by
  exact length_erase_lt (List.mem_filter.1 (n.first?_mem _h)).1

/-- The number of dependencies of a declaration that are not executed. -/
def waitsFor (n : Network) (done : List Nat) (d : Nat) : Nat :=
  ((n.dependencies d).filter fun e => !done.contains e).length

theorem waitsFor_eq_zero {done : List Nat} {d : Nat} :
    n.waitsFor done d = 0 ↔ n.isReady done d = true := by
  simp [waitsFor, isReady]

theorem isReady_cons {done : List Nat} {d e : Nat} (h : n.isReady done d = true) :
    n.isReady (e :: done) d = true := by
  simp only [isReady, List.all_eq_true, List.contains_iff_mem] at h ⊢
  exact fun x hx => List.mem_cons_of_mem e (h x hx)

/-- Executing a declaration takes one away from the counts of those that depend on it. -/
theorem waitsFor_cons {done : List Nat} {d : Nat} (hd : d ∉ done) (x : Nat) :
    n.waitsFor (d :: done) x + (if d ∈ n.dependencies x then 1 else 0) = n.waitsFor done x := by
  have hnodup : ((n.dependencies x).filter fun e => !done.contains e).Nodup :=
    (n.nodup_dependencies x).filter _
  have herase : ((n.dependencies x).filter fun e => !(d :: done).contains e) =
      ((n.dependencies x).filter fun e => !done.contains e).erase d := by
    rw [hnodup.erase_eq_filter, List.filter_filter]
    refine List.filter_congr fun e _ => ?_
    rw [Bool.eq_iff_iff]
    simp
  unfold waitsFor
  rw [herase]
  split
  · rename_i hmem
    have hwaits : d ∈ (n.dependencies x).filter fun e => !done.contains e := by simp [hmem, hd]
    have hpos := List.length_pos_of_mem hwaits
    rw [List.length_erase_of_mem hwaits]
    omega
  · rename_i hmem
    rw [List.erase_of_not_mem (by simp [hmem]), Nat.add_zero]

end Network

/-! ## Counting -/

namespace Schedule

variable {n : Network} {s t : Schedule} {f : Nat → Nat}

/-- Lowering the counter of a declaration that waits for something. -/
theorem release_eq {d : Nat} {ready : List Nat} (hd : d ∈ n.positions) (hf : f d ≠ 0) :
    release ⟨n.positions.map f, ready⟩ d =
      .ok ⟨n.positions.map fun x => if x = d then f x - 1 else f x,
        if f d = 1 then ready.insert d else ready⟩ := by
  have hlt := Network.mem_positions.1 hd
  obtain ⟨k, hk⟩ := Nat.exists_eq_succ_of_ne_zero hf
  have hget : (n.positions.map f)[d]? = some (k + 1) := by
    simp [Network.positions, hlt, hk]
  have hset : (n.positions.map f).set d k =
      n.positions.map fun x => if x = d then f x - 1 else f x := by
    refine List.ext_getElem (by simp) fun i hi _ => ?_
    simp only [List.getElem_set, List.getElem_map, Network.positions, List.getElem_range]
    by_cases hi : i = d
    · simp [hi, hk]
    · simp [hi, Ne.symm hi]
  have hone : (k = 0) = (f d = 1) := by simp [hk]
  unfold release
  simp only [hget, hset, hone]

/-- Lowering the counters of different declarations, each of which waits for something. Those that
waited for one thing get ready. -/
theorem foldlM_release (n : Network) : ∀ {ds : List Nat} {f : Nat → Nat} (ready : List Nat),
    ds.Nodup → (∀ d ∈ ds, d ∈ n.positions ∧ f d ≠ 0) →
      ∃ ready', ds.foldlM release ⟨n.positions.map f, ready⟩ =
          .ok ⟨n.positions.map fun x => if x ∈ ds then f x - 1 else f x, ready'⟩ ∧
        (∀ x, x ∈ ready' ↔ x ∈ ready ∨ x ∈ ds ∧ f x = 1) ∧ (ready.Nodup → ready'.Nodup)
  | [], f, ready, _, _ => ⟨ready, by simp [pure, Except.pure], by simp, id⟩
  | d :: ds, f, ready, hnodup, hwaits => by
    obtain ⟨hnew, hds⟩ := List.nodup_cons.1 hnodup
    obtain ⟨hd, hf⟩ := hwaits d List.mem_cons_self
    have hne : ∀ x ∈ ds, x ≠ d := fun x hx h => hnew (h ▸ hx)
    obtain ⟨ready', hrun, hmem, hready⟩ := foldlM_release n
      (f := fun x => if x = d then f x - 1 else f x)
      (if f d = 1 then ready.insert d else ready) hds fun x hx => by
        rw [if_neg (hne x hx)]
        exact hwaits x (List.mem_cons_of_mem d hx)
    refine ⟨ready', ?_, fun x => ?_, fun h => hready ?_⟩
    · rw [List.foldlM_cons, release_eq hd hf]
      refine hrun.trans ?_
      congr 3
      funext x
      by_cases hx : x = d
      · simp [hx, hnew]
      · simp [hx]
    · rw [hmem]
      by_cases hx : x = d
      · subst hx
        by_cases hone : f x = 1 <;> simp [hone, hnew]
      · by_cases hone : f d = 1 <;> simp [hone, hx]
    · split
      · exact h.insert
      · exact h

/-- The counter of each declaration is the number of its dependencies that are not executed, and
those are ready that are left and wait for nothing. -/
structure Counts (n : Network) (done left : List Nat) (s : Schedule) : Prop where
  pending : s.pending = n.positions.map (n.waitsFor done)
  ready : ∀ d, d ∈ s.ready ↔ d ∈ left ∧ n.isReady done d = true
  nodup_ready : s.ready.Nodup
  mem_left : ∀ d, d ∈ left ↔ d ∈ n.positions ∧ d ∉ done
  nodup_left : left.Nodup
  /-- What is executed waits for nothing. -/
  ready_of_done : ∀ d ∈ done, n.isReady done d = true

theorem counts_schedule (n : Network) : Counts n [] n.positions n.schedule where
  pending := by simp [Network.schedule, Network.waitsFor]
  ready d := by
    simp [Network.schedule, Network.isReady, List.isEmpty_iff, List.eq_nil_iff_forall_not_mem]
  nodup_ready := List.nodup_range.filter _
  mem_left d := by simp
  nodup_left := List.nodup_range
  ready_of_done := by simp

namespace Counts

variable {done left : List Nat} {d : Nat}

/-- The first of the ready declarations is the one that is executed next. -/
theorem first?_eq (hs : Counts n done left s) :
    n.first? s.ready = n.first? (left.filter (n.isReady done)) :=
  Network.first?_congr fun d => by rw [hs.ready, List.mem_filter]

/-- Executing a ready declaration lowers counters that are above zero, and the counts stay right. -/
theorem step (hs : Counts n done left s) (hd : d ∈ s.ready) :
    ∃ t, (n.dependents d).foldlM release (s.take d) = .ok t ∧
      Counts n (d :: done) (left.erase d) t := by
  obtain ⟨hleft, hready⟩ := (hs.ready d).1 hd
  obtain ⟨hpos, hnew⟩ := (hs.mem_left d).1 hleft
  have hcons := Network.waitsFor_cons (n := n) hnew
  have hmem : ∀ x, x ∈ n.dependents d ↔ d ∈ n.dependencies x := fun x =>
    Network.mem_dependents hpos
  have hwaits : ∀ x ∈ n.dependents d, x ∈ n.positions ∧ n.waitsFor done x ≠ 0 := fun x hx => by
    have hcount := hcons x
    rw [if_pos ((hmem x).1 hx)] at hcount
    exact ⟨(List.mem_filter.1 hx).1, by omega⟩
  obtain ⟨ready', hrun, hready', hnodup⟩ := foldlM_release n (s.ready.erase d)
    (n.nodup_dependents d) hwaits
  rw [← hs.pending] at hrun
  refine ⟨_, hrun, ?_, fun x => ?_, hnodup (hs.nodup_ready.erase d), fun x => ?_,
    hs.nodup_left.erase d, fun x hx => ?_⟩
  · refine List.map_congr_left fun x _ => ?_
    have hcount := hcons x
    simp only [hmem]
    split at hcount <;> rename_i h <;> simp only [h, if_true, if_false] <;> omega
  · have hzero : ∀ y, n.isReady done y = true → n.waitsFor done y = 0 := fun y =>
      Network.waitsFor_eq_zero.2
    have hcount := hcons x
    rw [hready', hs.nodup_ready.mem_erase_iff, hs.nodup_left.mem_erase_iff, hs.ready, hmem,
      ← Network.waitsFor_eq_zero, ← Network.waitsFor_eq_zero]
    constructor
    · rintro (⟨hne, hx, hwait⟩ | ⟨hx, hwait⟩)
      · exact ⟨⟨hne, hx⟩, by omega⟩
      · -- A declaration that waited for one thing is neither the executed one nor an earlier one.
        rw [if_pos hx] at hcount
        have hne : x ≠ d := fun h => by
          have := hzero d hready
          rw [← h] at this
          omega
        have hdone : x ∉ done := fun h => by
          have := hzero x (hs.ready_of_done x h)
          omega
        have hpos := Network.mem_positions_of_dependsOn (Network.mem_dependencies.1 hx).2
        exact ⟨⟨hne, (hs.mem_left x).2 ⟨hpos, hdone⟩⟩, by omega⟩
    · rintro ⟨⟨hne, hx⟩, hwait⟩
      split at hcount
      · exact .inr ⟨‹_›, by omega⟩
      · exact .inl ⟨hne, hx, by omega⟩
  · rw [hs.nodup_left.mem_erase_iff, hs.mem_left, List.mem_cons, not_or]
    tauto
  · rcases List.mem_cons.1 hx with rfl | hx
    · exact Network.isReady_cons hready
    · exact Network.isReady_cons (hs.ready_of_done x hx)

end Counts

end Schedule

namespace Network

variable (n : Network)

/-- Counting leads to the order without counters. -/
theorem execute_eq {s : Schedule} {done left : List Nat} (hs : Schedule.Counts n done left s) :
    n.execute s = .ok (n.executeFrom done left) := by
  fun_induction executeFrom n done left generalizing s with
  | case1 done left hnone =>
    unfold execute
    split
    · rfl
    · rename_i d hd
      rw [hs.first?_eq, hnone] at hd
      cases hd
  | case2 done left d hd ih =>
    obtain ⟨t, ht, hcounts⟩ := hs.step (n.first?_mem (hs.first?_eq.trans hd))
    unfold execute
    split
    · rename_i hnone
      rw [hs.first?_eq, hd] at hnone
      cases hnone
    · rename_i d' hd'
      obtain rfl := Option.some.inj (hd'.symm.trans (hs.first?_eq.trans hd))
      split
      · rename_i hf
        rw [ht] at hf
        cases hf
      · rename_i t' ht'
        obtain rfl := Except.ok.inj (ht'.symm.trans ht)
        rw [ih hcounts]
        rfl

theorem execute_schedule : n.execute n.schedule = .ok (n.executeFrom [] n.positions) :=
  n.execute_eq (Schedule.counts_schedule n)

/-- The report of a cycle among the declarations that are not in the order. -/
def cycleReport (order : List Nat) : Diagnostic :=
  (Cause.cyclicDeclarations ((n.cycleAmong order).map n.declarationName)).report
    (((n.cycleAmong order).head?.map n.declarationLocation).getD n.location)

theorem sort_eq : n.sort =
    if (n.executeFrom [] n.positions).length < n.declarations.length then
      .error (.rejected (n.cycleReport (n.executeFrom [] n.positions)))
    else .ok (n.executeFrom [] n.positions) := by
  unfold sort
  rw [execute_schedule]
  rfl

end Network

end Blockwork
