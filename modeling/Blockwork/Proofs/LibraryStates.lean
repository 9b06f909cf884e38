import Blockwork.Proofs.Rejections

/-!
# States of a library

While a library compiles a block it is asked for others, in states where some blocks are half way
through. `Library.Consistent` says what all these states have in common, and `Library.Advances` what
a state keeps of an earlier one. Libraries stay consistent when a block is started, when it comes to
its result and when a draft is added.

What is known of blocks that failed is left open: a predicate `F` on names and diagnostics.
-/

namespace Blockwork

/-- What comes of a block for good. -/
def Progress.IsFinal : Progress → Prop
  | .unstarted _ => False
  | .running => False
  | .ready _ => True
  | .failed _ => True

namespace Library

variable {l l' m : Library} {name other : String}

theorem isFinal_of_progressOf {result : Except Fault Plan} {x : Progress}
    (hx : progressOf result = some x) : x.IsFinal := by
  rcases progressOf_eq_some.1 hx with ⟨p, -, rfl⟩ | ⟨d, -, rfl⟩ <;> trivial

/-! ## Progress -/

/-- The plan of a block, if it has been compiled. -/
def ready? (l : Library) (name : String) : Option Plan :=
  match l.progress? name with
  | some (.ready p) => some p
  | _ => none

theorem ready?_eq_some {p : Plan} :
    l.ready? name = some p ↔ l.progress? name = some (.ready p) := by
  unfold ready?
  split
  · rename_i q hq
    rw [hq]
    simp
  · rename_i hnone
    exact ⟨(nomatch ·), fun h => absurd h (hnone p)⟩

/-- The library has come to a plan for the name, or has no block of it. -/
def Answers (l : Library) (name : String) (o : Option Plan) : Prop :=
  l.progress? name = o.map .ready

theorem Answers.ready? {o : Option Plan} (h : l.Answers name o) : l.ready? name = o := by
  unfold Library.ready?
  rw [h]
  cases o <;> rfl

theorem progress?_setProgress (l : Library) (name other : String) (x : Progress) :
    (l.setProgress name x).progress? other =
      if other = name then (l.progress? name).map fun _ => x else l.progress? other := by
  unfold progress? find? setProgress
  rw [List.find?_map, Option.map_map]
  have hname : (fun e : Entry => e.name == other) ∘
      (fun e => if e.name = name then { e with progress := x } else e) =
        fun e => e.name == other := by
    funext e
    simp only [Function.comp]
    split <;> rfl
  rw [hname]
  split
  · rename_i heq
    rw [heq, Option.map_map]
    refine Option.map_congr fun e he => ?_
    simp [(of_find?_eq_some he).2]
  · rename_i hne
    refine Option.map_congr fun e he => ?_
    simp [(of_find?_eq_some he).2, hne]

theorem progress?_start {x : Progress} (h : l.progress? name = some x) (other : String) :
    (l.start name).progress? other = if other = name then some .running else l.progress? other := by
  show (l.setProgress name .running).progress? other = _
  rw [progress?_setProgress, h]
  rfl

theorem progress?_finish {x y : Progress} {result : Except Fault Plan}
    (h : l.progress? name = some x) (hy : progressOf result = some y) (other : String) :
    (l.finish name result).progress? other =
      if other = name then some y else l.progress? other := by
  unfold finish
  rw [hy]
  show (l.setProgress name y).progress? other = _
  rw [progress?_setProgress, h]
  rfl

theorem names_setProgress (l : Library) (name : String) (x : Progress) :
    (l.setProgress name x).entries.map Entry.name = l.entries.map Entry.name := by
  unfold setProgress
  rw [List.map_map]
  refine List.map_congr_left fun e _ => ?_
  simp only [Function.comp]
  split <;> rfl

theorem catalog_finish (l : Library) (name : String) (result : Except Fault Plan) :
    (l.finish name result).catalog = l.catalog := by
  unfold finish
  split <;> rfl

theorem names_finish (l : Library) (name : String) (result : Except Fault Plan) :
    (l.finish name result).entries.map Entry.name = l.entries.map Entry.name := by
  unfold finish
  split
  · exact names_setProgress ..
  · rfl

theorem running_finish {result : Except Fault Plan} {x : Progress}
    (hx : progressOf result = some x) : (l.finish name result).running = l.running.dropLast := by
  unfold finish
  rw [hx]
  rfl

/-! ## Blocks still to be compiled -/

theorem countP_others_le (name : String) (es : List Entry) :
    (es.countP fun e => e.isUnstarted && decide (e.name ≠ name)) ≤ es.countP Entry.isUnstarted :=
  List.countP_mono_left fun _ _ he => (Bool.and_eq_true_iff.1 he).1

/-- Only blocks of other names are still to be compiled. -/
theorem unstarted_setProgress {x : Progress} (hx : ∀ a, x ≠ .unstarted a) :
    (l.setProgress name x).unstarted =
      l.entries.countP fun e => e.isUnstarted && decide (e.name ≠ name) := by
  have hset : ∀ e : Entry, ({ e with progress := x } : Entry).isUnstarted = false := fun e => by
    cases x with
    | unstarted a => exact absurd rfl (hx a)
    | _ => rfl
  unfold unstarted setProgress
  rw [List.countP_map]
  refine List.countP_congr fun e _ => ?_
  simp only [Function.comp]
  split
  · rename_i heq
    rw [hset e]
    simp [heq]
  · rename_i hne
    simp [hne]

theorem unstarted_setProgress_le {x : Progress} (hx : ∀ a, x ≠ .unstarted a) :
    (l.setProgress name x).unstarted ≤ l.unstarted := by
  rw [unstarted_setProgress hx]
  exact countP_others_le name l.entries

/-- A block that is started is not still to be compiled. -/
theorem unstarted_start_lt {a : Assembly} (h : l.progress? name = some (.unstarted a)) :
    (l.start name).unstarted < l.unstarted := by
  obtain ⟨e, he, hprogress⟩ := Option.map_eq_some_iff.1 h
  obtain ⟨hmem, hname⟩ := of_find?_eq_some he
  have hstarted : e.isUnstarted = true := by
    unfold Entry.isUnstarted
    rw [hprogress]
  have hother : ¬(e.isUnstarted && decide (e.name ≠ name)) = true := by simp [hname]
  show (l.setProgress name .running).unstarted < _
  rw [unstarted_setProgress (by simp)]
  unfold unstarted
  obtain ⟨before, after, hsplit⟩ := List.append_of_mem hmem
  have hbefore := countP_others_le name before
  have hafter := countP_others_le name after
  rw [hsplit, List.countP_append, List.countP_append, List.countP_cons, List.countP_cons,
    if_pos hstarted, if_neg hother]
  omega

theorem unstarted_finish_le {result : Except Fault Plan} :
    (l.finish name result).unstarted ≤ l.unstarted := by
  unfold finish
  split
  · rename_i x hx
    refine unstarted_setProgress_le fun a ha => ?_
    subst ha
    exact isFinal_of_progressOf hx
  · exact Nat.le_refl _

/-! ## Later states -/

/-- What came of blocks for good is kept. -/
def Keeps (l l' : Library) : Prop :=
  ∀ name x, x.IsFinal → l.progress? name = some x → l'.progress? name = some x

theorem Keeps.refl (l : Library) : l.Keeps l :=
  fun _ _ _ h => h

theorem Keeps.trans (h : l.Keeps m) (h' : m.Keeps l') : l.Keeps l' :=
  fun name x hx hl => h' name x hx (h name x hx hl)

/-- A later state between the same starts and finishes of blocks above it. -/
structure Advances (l l' : Library) : Prop where
  running : l'.running = l.running
  keeps : l.Keeps l'
  unstarted : l'.unstarted ≤ l.unstarted

theorem Advances.refl (l : Library) : l.Advances l :=
  ⟨rfl, .refl l, Nat.le_refl _⟩

theorem Advances.trans (h : l.Advances m) (h' : m.Advances l') : l.Advances l' :=
  ⟨h'.running.trans h.running, h.keeps.trans h'.keeps, h'.unstarted.trans h.unstarted⟩

/-- Nothing is lost if only a block changes that has not come to its result. -/
theorem keeps_of_progress? {x y : Progress} (h : l.progress? name = some x) (hx : ¬x.IsFinal)
    (hm : ∀ other, m.progress? other = if other = name then some y else l.progress? other) :
    l.Keeps m := by
  intro other z hz hother
  rw [hm]
  split
  · rename_i heq
    obtain rfl := Option.some.inj ((heq ▸ hother).symm.trans h)
    exact absurd hz hx
  · exact hother

theorem keeps_start {a : Assembly} (h : l.progress? name = some (.unstarted a)) :
    l.Keeps (l.start name) :=
  keeps_of_progress? h id (progress?_start h)

theorem keeps_finish (h : l.progress? name = some .running) {result : Except Fault Plan}
    {x : Progress} (hx : progressOf result = some x) : l.Keeps (l.finish name result) :=
  keeps_of_progress? h id (progress?_finish h hx)

/-- A block that was started and has come to a result. -/
theorem advances_finish {a : Assembly} (h : l.progress? name = some (.unstarted a))
    (hm : (l.start name).Advances m) {result : Except Fault Plan} {x : Progress}
    (hx : progressOf result = some x) (hrunning : m.progress? name = some .running) :
    l.Advances (m.finish name result) where
  running := by
    rw [running_finish hx, hm.running]
    exact List.dropLast_concat
  keeps := (keeps_start h).trans (hm.keeps.trans (keeps_finish hrunning hx))
  unstarted := unstarted_finish_le.trans (hm.unstarted.trans (unstarted_start_lt h).le)

/-! ## Consistent states -/

/-- Blocks stand where their drafts do. -/
def Located (drafts : List BlockDraft) (l : Library) : Prop :=
  ∀ e ∈ l.entries, ∃ b ∈ drafts, b.name = e.name ∧ b.location = e.location

theorem Located.setProgress {drafts : List BlockDraft} (hl : Located drafts l) (name : String)
    (x : Progress) : Located drafts (l.setProgress name x) := by
  intro e he
  obtain ⟨e', he', rfl⟩ := List.mem_map.1 he
  obtain ⟨b, hb, hlocated⟩ := hl e' he'
  refine ⟨b, hb, ?_⟩
  split <;> exact hlocated

theorem Located.finish {drafts : List BlockDraft} (hl : Located drafts l) (name : String)
    (result : Except Fault Plan) : Located drafts (l.finish name result) := by
  have hpopped : Located drafts { l with running := l.running.dropLast } := hl
  unfold Library.finish
  split
  · exact hpopped.setProgress name _
  · exact hpopped

/-- What the states of a library have in common, also while blocks are compiled: the running blocks
are those on the stack, blocks still to be compiled are open and come from the drafts, and the plans
are those the drafts load with, as are the plans of all blocks they include. -/
structure Consistent (c : Catalog) (drafts : List BlockDraft) (F : String → Diagnostic → Prop)
    (l : Library) : Prop where
  catalog : l.catalog = c
  names : l.entries.map Entry.name = drafts.map BlockDraft.name
  located : Located drafts l
  unstarted : ∀ name a, l.progress? name = some (.unstarted a) →
    a.state = .growing ∧ a.draft ∈ drafts ∧ a.draft.name = name
  nodup : l.running.Nodup
  running : ∀ name, l.progress? name = some .running ↔ name ∈ l.running
  ready : ∀ name p, l.progress? name = some (.ready p) → c.Loads drafts name p
  included : ∀ name p, l.progress? name = some (.ready p) → ∀ inner, Includes drafts name inner →
    ∃ q, l.progress? inner = some (.ready q)
  failed : ∀ name d, l.progress? name = some (.failed d) → F name d

theorem exists_progress?_iff : (∃ x, l.progress? name = some x) ↔
    name ∈ l.entries.map Entry.name := by
  unfold progress? find?
  constructor
  · rintro ⟨x, hx⟩
    obtain ⟨e, he, -⟩ := Option.map_eq_some_iff.1 hx
    exact List.mem_map.2 ⟨e, of_find?_eq_some he⟩
  · intro h
    obtain ⟨e, he, rfl⟩ := List.mem_map.1 h
    cases hfind : l.entries.find? fun x => x.name == e.name with
    | some x => exact ⟨x.progress, rfl⟩
    | none => exact absurd (List.find?_eq_none.1 hfind e he) (by simp)

namespace Consistent

variable {c : Catalog} {drafts : List BlockDraft} {F F' : String → Diagnostic → Prop}

theorem mark (hl : Consistent c drafts F l) (hF : ∀ name d, F name d → F' name d) :
    Consistent c drafts F' l :=
  { hl with failed := fun name d hd => hF name d (hl.failed name d hd) }

theorem exists_progress?_iff (hl : Consistent c drafts F l) :
    (∃ x, l.progress? name = some x) ↔ ∃ b ∈ drafts, b.name = name := by
  rw [Library.exists_progress?_iff, hl.names, List.mem_map]

/-- Plans that are there are those the blocks load with. -/
theorem loads (hl : Consistent c drafts F l) {p : Plan} (h : l.ready? name = some p) :
    c.Loads drafts name p :=
  hl.ready name p (ready?_eq_some.1 h)

/-- Where the library answers for a block that loads, it has the plan. -/
theorem ready?_of_loads (hl : Consistent c drafts F l)
    (hnodup : (drafts.map BlockDraft.name).Nodup) {o : Option Plan} (h : l.Answers name o)
    {q : Plan} (hq : c.Loads drafts name q) : l.ready? name = some q := by
  rw [h.ready?]
  cases o with
  | some p => rw [(hl.ready name p h).unique hnodup hq]
  | none =>
    obtain ⟨x, hx⟩ := hl.exists_progress?_iff.2 hq.exists_draft
    exact nomatch hx.symm.trans h

theorem start (hl : Consistent c drafts F l) {a : Assembly}
    (h : l.progress? name = some (.unstarted a)) : Consistent c drafts F (l.start name) := by
  have hprogress := progress?_start h
  have hfresh : name ∉ l.running := fun hmem =>
    nomatch h.symm.trans ((hl.running name).2 hmem)
  have hother : ∀ other x, (l.start name).progress? other = some x → x ≠ .running →
      l.progress? other = some x := fun other x hx hne => by
    rw [hprogress] at hx
    split at hx
    · exact absurd (Option.some.inj hx).symm hne
    · exact hx
  refine ⟨hl.catalog, (names_setProgress ..).trans hl.names, hl.located.setProgress name .running,
    fun other a ha => hl.unstarted other a (hother other _ ha (by simp)), ?_, fun other => ?_,
    fun other p hp => hl.ready other p (hother other _ hp (by simp)),
    fun other p hp inner hinner => ?_,
    fun other d hd => hl.failed other d (hother other _ hd (by simp))⟩
  · exact List.nodup_append.2 ⟨hl.nodup, List.nodup_singleton name, by
      rintro x hx y hy rfl
      exact hfresh (List.mem_singleton.1 hy ▸ hx)⟩
  · show _ ↔ other ∈ l.running ++ [name]
    rw [hprogress, List.mem_append, List.mem_singleton, ← hl.running other]
    split <;> simp [*]
  · obtain ⟨q, hq⟩ := hl.included other p (hother other _ hp (by simp)) inner hinner
    exact ⟨q, keeps_start h inner _ trivial hq⟩

/-- A running block comes to a result. -/
theorem finish (hm : Consistent c drafts F m) {stack : List String}
    (hstack : m.running = stack ++ [name]) {result : Except Fault Plan} {x : Progress}
    (hx : progressOf result = some x)
    (hready : ∀ p, result = .ok p → c.Loads drafts name p ∧
      ∀ inner, Includes drafts name inner → ∃ q, m.progress? inner = some (.ready q))
    (hfailed : ∀ d, result = .error (.rejected d) → F name d) :
    Consistent c drafts F (m.finish name result) := by
  have hrunning : m.progress? name = some .running :=
    (hm.running name).2 (by simp [hstack])
  have hprogress := progress?_finish hrunning hx
  have hkeeps := keeps_finish hrunning hx
  have hfinal := isFinal_of_progressOf hx
  have hplan : ∀ p, x = .ready p → result = .ok p := by
    rintro p rfl
    simpa [progressOf_eq_some] using hx
  have hdiagnostic : ∀ d, x = .failed d → result = .error (.rejected d) := by
    rintro d rfl
    simpa [progressOf_eq_some] using hx
  have hunrunning : (m.finish name result).running = stack := by
    rw [running_finish hx, hstack, List.dropLast_concat]
  obtain ⟨hstack', -, hname⟩ := List.nodup_append.1 (hstack ▸ hm.nodup)
  -- What came of the block itself stands in the result, the rest is as before.
  have hother : ∀ other y, (m.finish name result).progress? other = some y →
      (other = name ∧ y = x) ∨ (other ≠ name ∧ m.progress? other = some y) := fun other y hy => by
    rw [hprogress] at hy
    split at hy
    · exact .inl ⟨‹_›, (Option.some.inj hy).symm⟩
    · exact .inr ⟨‹_›, hy⟩
  refine ⟨(catalog_finish ..).trans hm.catalog, (names_finish ..).trans hm.names,
    hm.located.finish name result, fun other a ha => ?_, hunrunning ▸ hstack', fun other => ?_,
    fun other p hp => ?_, fun other p hp inner hinner => ?_, fun other d hd => ?_⟩
  · rcases hother other _ ha with ⟨-, rfl⟩ | ⟨-, ha⟩
    · exact hfinal.elim
    · exact hm.unstarted other a ha
  · rw [hunrunning, hprogress]
    split
    · rename_i heq
      refine ⟨fun h => ?_, fun h => (hname other h name (List.mem_singleton_self name) heq).elim⟩
      exact ((Option.some.inj h) ▸ hfinal).elim
    · rename_i hne
      rw [hm.running, hstack]
      simp [hne]
  · rcases hother other _ hp with ⟨rfl, h⟩ | ⟨-, hp⟩
    · exact (hready p (hplan p h.symm)).1
    · exact hm.ready other p hp
  · have ⟨q, hq⟩ : ∃ q, m.progress? inner = some (.ready q) := by
      rcases hother other _ hp with ⟨rfl, h⟩ | ⟨-, hp⟩
      · exact (hready p (hplan p h.symm)).2 inner hinner
      · exact hm.included other p hp inner hinner
    exact ⟨q, hkeeps inner _ trivial hq⟩
  · rcases hother other _ hd with ⟨rfl, h⟩ | ⟨-, hd⟩
    · exact hfailed d (hdiagnostic d h.symm)
    · exact hm.failed other d hd

end Consistent

/-! ## Plans that are asked for -/

variable {c : Catalog} {drafts : List BlockDraft} {F : String → Diagnostic → Prop}

/-- The library has the catalog, its blocks still to be compiled come from the drafts, and its plans
are those the blocks load with. -/
abbrev Loading (c : Catalog) (drafts : List BlockDraft) : Library → Prop :=
  Holds c (fun name a => a.draft ∈ drafts ∧ a.draft.name = name) (c.Loads drafts)

/-- Whatever else happened, all plans that are asked for are those the blocks load with. -/
theorem compiles_loads (hnodup : (drafts.map BlockDraft.name).Nodup) :
    Compiles c (fun name a => a.draft ∈ drafts ∧ a.draft.name = name) (c.Loads drafts) := by
  rintro r name a hr ⟨ha, rfl⟩
  exact Catalog.ensures_loads hnodup hr ha

theorem progress?_of_mem (hnodup : (l.entries.map Entry.name).Nodup) {e : Entry}
    (he : e ∈ l.entries) : l.progress? e.name = some e.progress := by
  obtain ⟨x, hx⟩ := exists_progress?_iff.2 (List.mem_map_of_mem (f := Entry.name) he)
  obtain ⟨e', he', rfl⟩ := Option.map_eq_some_iff.1 hx
  obtain ⟨hmem, hname⟩ := of_find?_eq_some he'
  rw [hx, List.inj_on_of_nodup_map hnodup hmem he hname]

theorem Consistent.loading (hl : Consistent c drafts F l)
    (hnodup : (drafts.map BlockDraft.name).Nodup) : Loading c drafts l where
  catalog := hl.catalog
  unstarted e he a ha := by
    have hprogress := progress?_of_mem (hl.names ▸ hnodup) he
    exact (hl.unstarted e.name a (ha ▸ hprogress)).2
  ready e he p hp := by
    have hprogress := progress?_of_mem (hl.names ▸ hnodup) he
    exact hl.ready e.name p (hp ▸ hprogress)

/-! ## Drafts that are added -/

end Library

namespace BlockDraft

variable {b b' : BlockDraft}

theorem eq_of_acceptParam {p : BlockParamDraft} (h : b.acceptParam p = .ok b') :
    b' = b.addParam p := by
  obtain ⟨_, -, h⟩ := bind_eq_ok.1 h
  exact (pure_eq_ok.1 h).symm

theorem eq_of_acceptDeclaration {d : DeclarationDraft} (h : b.acceptDeclaration d = .ok b') :
    b' = b.addDeclaration d := by
  obtain ⟨_, -, h⟩ := bind_eq_ok.1 h
  exact (pure_eq_ok.1 h).symm

theorem eq_of_acceptOutput {o : OutputDraft} (h : b.acceptOutput o = .ok b') :
    b' = b.addOutput o := by
  obtain ⟨_, -, h⟩ := bind_eq_ok.1 h
  exact (pure_eq_ok.1 h).symm

/-- Accepting the parts of a block one by one changes nothing about it. -/
theorem eq_of_acceptAll (h : b.acceptAll = .ok b') : b' = b := by
  unfold acceptAll at h
  simp only [bind_eq_ok] at h
  obtain ⟨withParams, hparams, withDeclarations, hdeclarations, houtputs⟩ := h
  have hparams : withParams = { b with declarations := [], outputs := [] } :=
    foldlM_invariant_done (fun done (e : BlockDraft) =>
      e = { b with params := done, declarations := [], outputs := [] })
      (fun done p rest e e' _ he hstep => by rw [eq_of_acceptParam hstep, he]; rfl) rfl hparams
  have hdeclarations : withDeclarations = { b with outputs := [] } :=
    foldlM_invariant_done (fun done (e : BlockDraft) =>
      e = { b with declarations := done, outputs := [] })
      (fun done d rest e e' _ he hstep => by rw [eq_of_acceptDeclaration hstep, he]; rfl)
      hparams hdeclarations
  exact foldlM_invariant_done (fun done (e : BlockDraft) => e = { b with outputs := done })
    (fun done o rest e e' _ he hstep => by rw [eq_of_acceptOutput hstep, he]; rfl)
    hdeclarations houtputs

end BlockDraft

namespace Library

variable {c : Catalog} {drafts : List BlockDraft} {F F' : String → Diagnostic → Prop}
  {l l' : Library} {b : BlockDraft}

/-- A draft is added as it is, under a name that is new. -/
theorem addDraft_eq_ok (h : (addDraft b).result l = .ok l') : l.progress? b.name = none ∧
    l' = { l with entries := l.entries ++ [⟨b.name, b.location, .unstarted ⟨b, .growing⟩⟩] } := by
  obtain ⟨hnew, a, ha, rfl⟩ := result_addDraft.1 h
  obtain ⟨b', hb', rfl⟩ := map_eq_ok.1 ha
  obtain rfl := BlockDraft.eq_of_acceptAll hb'
  exact ⟨Option.map_eq_none_iff.2 hnew, rfl⟩

theorem progress?_addDraft (h : (addDraft b).result l = .ok l') (name : String) :
    l'.progress? name =
      if name = b.name then some (.unstarted ⟨b, .growing⟩) else l.progress? name := by
  obtain ⟨hnew, rfl⟩ := addDraft_eq_ok h
  unfold progress? find? at hnew ⊢
  rw [List.find?_append]
  by_cases heq : name = b.name
  · rw [if_pos heq, heq, Option.map_eq_none_iff.1 hnew]
    simp
  · have hne : b.name ≠ name := fun h => heq h.symm
    simp [heq, hne]

/-- Adding a draft changes nothing about the blocks there are. -/
theorem progress?_eq_some_of_addDraft (h : (addDraft b).result l = .ok l') {name : String}
    {x : Progress} (hx : l.progress? name = some x) : l'.progress? name = some x := by
  rw [progress?_addDraft h, if_neg, hx]
  rintro rfl
  exact nomatch (addDraft_eq_ok h).1.symm.trans hx

/-- A library stays consistent if a draft is added. -/
theorem Consistent.addDraft (hl : Consistent c drafts F l)
    (h : (Library.addDraft b).result l = .ok l') (hF : ∀ name d, F name d → F' name d) :
    Consistent c (drafts ++ [b]) F' l' := by
  have hprogress := progress?_addDraft h
  have hother : ∀ name x, l'.progress? name = some x → (∀ a, x ≠ .unstarted a) →
      l.progress? name = some x := fun name x hx hne => by
    rw [hprogress] at hx
    split at hx
    · exact absurd (Option.some.inj hx).symm (hne _)
    · exact hx
  have hkept := fun name x (hx : l.progress? name = some x) =>
    progress?_eq_some_of_addDraft h hx
  obtain ⟨hnew, rfl⟩ := addDraft_eq_ok h
  refine ⟨hl.catalog, ?_, fun e he => ?_, fun name a ha => ?_, hl.nodup, fun name => ?_,
    fun name p hp =>
      (hl.ready name p (hother name _ hp (by simp))).mono (List.subset_append_left ..),
    fun name p hp inner hinner => ?_,
    fun name d hd => hF name d (hl.failed name d (hother name _ hd (by simp)))⟩
  · rw [List.map_append, List.map_append, hl.names]
    rfl
  · rcases List.mem_append.1 he with he | he
    · obtain ⟨b', hb', hlocated⟩ := hl.located e he
      exact ⟨b', List.mem_append_left _ hb', hlocated⟩
    · rw [List.mem_singleton.1 he]
      exact ⟨b, by simp⟩
  · rw [hprogress] at ha
    split at ha
    · obtain rfl := Progress.unstarted.inj (Option.some.inj ha)
      exact ⟨rfl, by simp, by simp [*]⟩
    · obtain ⟨hgrowing, hmem, hname⟩ := hl.unstarted name a ha
      exact ⟨hgrowing, List.mem_append_left _ hmem, hname⟩
  · exact ⟨fun hr => (hl.running name).1 (hother name _ hr (by simp)),
      fun hr => hkept name _ ((hl.running name).2 hr)⟩
  · -- A block with a plan is not the one that is added.
    have hp := hother name _ hp (by simp)
    obtain ⟨b', hb', hname, hmem⟩ := hinner
    rcases List.mem_append.1 hb' with hb' | hb'
    · obtain ⟨q, hq⟩ := hl.included name p hp inner ⟨b', hb', hname, hmem⟩
      exact ⟨q, hkept inner _ hq⟩
    · rw [List.mem_singleton.1 hb'] at hname
      exact nomatch (hname ▸ hnew).symm.trans hp

theorem nodup_addDraft (hl : l.entries.map Entry.name = drafts.map BlockDraft.name)
    (h : (addDraft b).result l = .ok l') (hnodup : (drafts.map BlockDraft.name).Nodup) :
    ((drafts ++ [b]).map BlockDraft.name).Nodup := by
  rw [List.map_append]
  refine List.nodup_append.2 ⟨hnodup, List.nodup_singleton b.name, ?_⟩
  rintro name hname other hother rfl
  obtain rfl := List.mem_singleton.1 hother
  obtain ⟨x, hx⟩ := exists_progress?_iff.2 (hl ▸ hname)
  exact nomatch (addDraft_eq_ok h).1.symm.trans hx

theorem Loading.addDraft (hl : Loading c drafts l) (h : (Library.addDraft b).result l = .ok l') :
    Loading c (drafts ++ [b]) l' := by
  refine (hl.mono (fun _ _ ha => ha.imp_left (List.mem_append_left _)) fun _ _ hp =>
    hp.mono (List.subset_append_left ..)).addDraft (fun a ha => ?_) h
  obtain ⟨b', hb', rfl⟩ := map_eq_ok.1 ha
  obtain rfl := BlockDraft.eq_of_acceptAll hb'
  simp

/-- A library without blocks is consistent. -/
theorem consistent_ofCatalog (c : Catalog) (F : String → Diagnostic → Prop) :
    Consistent c [] F (ofCatalog c) where
  catalog := rfl
  names := rfl
  located _ h := nomatch h
  unstarted _ _ h := nomatch h
  nodup := List.nodup_nil
  running _ := ⟨(nomatch ·), (nomatch ·)⟩
  ready _ _ h := nomatch h
  included _ _ h := nomatch h
  failed _ _ h := nomatch h

/-- The library of a bundle is consistent, of blocks of different names, none of which is running or
has failed. -/
theorem fresh_ofBundle {b : Bundle} (hok : ofBundle b = .ok l) :
    Consistent l.catalog b.blocks (fun _ _ => False) l ∧ (b.blocks.map BlockDraft.name).Nodup ∧
      l.running = [] := by
  obtain ⟨catalog, -, -, hrun⟩ := ofBundle_eq_ok hok
  have hblocks := foldlM_of_collect (congrArg Prod.fst hrun)
  rw [hrun] at hblocks
  have hinv := foldlM_invariant_done (fun done (l : Library) =>
    Consistent ((collect Catalog.register b.components).run catalog).2 done (fun _ _ => False) l ∧
      (done.map BlockDraft.name).Nodup ∧ l.running = [])
    (fun done d rest l l' _ ⟨hl, hnodup, hidle⟩ hstep =>
      ⟨hl.addDraft hstep fun _ _ => id, nodup_addDraft hl.names hstep hnodup,
        (congrArg Library.running (addDraft_eq_ok hstep).2).trans hidle⟩)
    ⟨consistent_ofCatalog _ _, List.nodup_nil, rfl⟩ hblocks
  rw [hinv.1.catalog]
  exact hinv

theorem consistent_ofBundle {b : Bundle} (hok : ofBundle b = .ok l) (F : String → Prop) :
    Consistent l.catalog b.blocks (fun name _ => F name) l ∧
      (b.blocks.map BlockDraft.name).Nodup ∧ l.running = [] :=
  ⟨(fresh_ofBundle hok).1.mark fun _ _ => False.elim, (fresh_ofBundle hok).2⟩

end Library

end Blockwork
