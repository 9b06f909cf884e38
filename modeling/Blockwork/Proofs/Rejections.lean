import Blockwork.Proofs.Loads

/-!
# Where defects are reported

A block whose declarations are linked and completed is only ever rejected at a place in its own
source, and never for inclusions that go round in a circle (`RejectsIn`). All places a network
mentions are in the source of its block (`Network.StandsIn`), and every stage reports at one of
them.
-/

namespace Blockwork

variable {α β σ : Type} {origin : String}

/-- The place is in the source, at any line or at none. -/
def Location.IsIn (l : Location) (origin : String) : Prop :=
  ∃ line, l = .source origin line

theorem Location.IsIn.atLine {l : Location} (h : l.IsIn origin) (line : Option UInt32) :
    (l.atLine line).IsIn origin := by
  obtain ⟨line', rfl⟩ := h
  cases line with
  | none => exact ⟨line', rfl⟩
  | some k => exact ⟨some k, rfl⟩

/-- The file a block was read from, or its name. -/
def BlockDraft.source (b : BlockDraft) : String :=
  b.origin.getD b.name

theorem BlockDraft.isIn_location (b : BlockDraft) : b.location.IsIn b.source :=
  ⟨none, rfl⟩

/-- The report of a defect in the source, other than inclusions going round in a circle. -/
structure Diagnostic.IsFrom (d : Diagnostic) (origin : String) : Prop where
  kind : d.kind ≠ .cyclicBlockDependency
  location : d.location.IsIn origin

/-- Whether the defect is that inclusions go round in a circle. -/
def Cause.isInclusion : Cause → Bool
  | cyclicInclusion _ => true
  | _ => false

theorem Cause.kind_ne {c : Cause} (h : c.isInclusion = false) :
    c.kind ≠ .cyclicBlockDependency := by
  cases c with
  | cyclicInclusion => cases h
  | rejectedType _ e => cases e <;> simp [kind]
  | illegalLiteral _ e => cases e <;> simp [kind]
  | _ => simp [kind]

/-- The input is only rejected for defects in the source. -/
def RejectsIn (origin : String) (x : Except Fault α) : Prop :=
  ∀ d, x = .error (.rejected d) → d.IsFrom origin

namespace RejectsIn

theorem ok (a : α) : RejectsIn origin (.ok a) :=
  fun _ h => nomatch h

theorem breach (b : Breach) : RejectsIn origin (.error (.breach b) : Except Fault α) :=
  fun _ h => nomatch h

theorem reject {c : Cause} {l : Location} (hl : l.IsIn origin)
    (hc : c.isInclusion = false) :
    RejectsIn origin (Blockwork.reject c l : Except Fault α) := by
  intro d h
  obtain rfl := Fault.rejected.inj (Except.error.inj h)
  exact ⟨Cause.kind_ne hc, hl⟩

theorem require (b : Breach) (o : Option α) : RejectsIn origin (Blockwork.require b o) := by
  cases o with
  | none => exact breach b
  | some a => exact ok a

theorem bind {x : Except Fault α} {f : α → Except Fault β} (hx : RejectsIn origin x)
    (hf : ∀ a, x = .ok a → RejectsIn origin (f a)) : RejectsIn origin (x >>= f) := by
  cases x with
  | error e => exact fun d h => hx d (congrArg Except.error (Except.error.inj h))
  | ok a => exact hf a rfl

theorem map {x : Except Fault α} (hx : RejectsIn origin x) (f : α → β) :
    RejectsIn origin (x.map f) := by
  cases x with
  | error e => exact fun d h => hx d (congrArg Except.error (Except.error.inj h))
  | ok a => exact ok (f a)

/-- A run rejects its input in the source if its steps do, from what the steps before leave
behind. -/
theorem foldlM {step : σ → α → Except Fault σ} (P : σ → Prop)
    (hstep : ∀ a s, P s → RejectsIn origin (step s a) ∧ ∀ s', step s a = .ok s' → P s') :
    ∀ {l : List α} {s : σ}, P s → RejectsIn origin (l.foldlM step s)
  | [], s, _ => ok s
  | a :: l, s, hs => by
    rw [List.foldlM_cons]
    obtain ⟨hrejects, hnext⟩ := hstep a s hs
    exact hrejects.bind fun s' hs' => foldlM P hstep (hnext s' hs')

theorem foldlM_all {step : σ → α → Except Fault σ} (hstep : ∀ a s, RejectsIn origin (step s a))
    {l : List α} {s : σ} : RejectsIn origin (l.foldlM step s) :=
  foldlM (fun _ => True) (fun a s _ => ⟨hstep a s, fun _ _ => trivial⟩) trivial

theorem mapM {f : α → Except Fault β} :
    ∀ {l : List α}, (∀ a ∈ l, RejectsIn origin (f a)) → RejectsIn origin (l.mapM f)
  | [], _ => ok []
  | a :: l, h => by
    rw [List.mapM_cons]
    exact (h a List.mem_cons_self).bind fun b _ =>
      (mapM fun x hx => h x (List.mem_cons_of_mem a hx)).bind fun bs _ => ok (b :: bs)

end RejectsIn

/-! ## Linking -/

namespace ParamDraft

variable {h : Hierarchy} {declaration param : String} {p : ParamDraft} {location : Location}

theorem rejectsIn_checkGiven (hl : location.IsIn origin) {formal : FormalParameter}
    {seen : List String} {as : List AttrDraft} :
    RejectsIn origin (checkGiven declaration param formal location seen as) := by
  induction as generalizing seen with
  | nil => exact .ok _
  | cons a as ih =>
    unfold checkGiven
    split
    · exact .reject hl rfl
    · split
      · exact .reject hl rfl
      · exact ih

theorem rejectsIn_linkSlot (hl : location.IsIn origin) {f : FormalAttribute} :
    RejectsIn origin (p.linkSlot h declaration location f) := by
  unfold linkSlot
  simp only
  split
  · exact .ok _
  · split
    · exact .ok _
    · exact .reject hl rfl
  · split
    · exact .ok _
    · exact .reject hl rfl

theorem rejectsIn_link (hl : location.IsIn origin) {index : Nat} {formal : FormalParameter} :
    RejectsIn origin (p.link h declaration index formal location) :=
  (rejectsIn_checkGiven hl).bind fun _ _ =>
    (RejectsIn.mapM fun _ _ => rejectsIn_linkSlot hl).bind fun _ _ => .ok _

end ParamDraft

theorem DeclarationDraft.rejectsIn_link {h : Hierarchy} {d : DeclarationDraft} {s : Specification}
    {location : Location} (hl : location.IsIn origin) :
    RejectsIn origin (d.link h s location) := by
  refine (RejectsIn.mapM fun p _ => ?_).bind fun _ _ => .ok _
  unfold linkParam
  split
  · exact .reject hl rfl
  · split
    · exact .breach _
    · exact ParamDraft.rejectsIn_link hl

/-- A declaration is rejected at its line. -/
theorem Catalog.rejectsIn_linkDeclaration {c : Catalog} {plans : String → Option Plan}
    {b : BlockDraft} {d : DeclarationDraft} :
    RejectsIn b.source (c.linkDeclaration plans b d) := by
  have hl := b.isIn_location.atLine d.line
  have hlink : ∀ missing o, missing.isInclusion = false →
      RejectsIn b.source (b.linkTo c.types d missing o) := fun missing o hmissing => by
    cases o with
    | none => exact .reject hl hmissing
    | some x => exact DeclarationDraft.rejectsIn_link hl
  cases hkind : d.kind with
  | component => exact linkDeclaration_component hkind ▸ hlink _ _ rfl
  | block => exact linkDeclaration_block hkind ▸ hlink _ _ rfl

/-! ## Networks in a source -/

/-- The block and its declarations are in the source. -/
structure Network.StandsIn (n : Network) (origin : String) : Prop where
  location : n.location.IsIn origin
  declarations : ∀ d ∈ n.declarations, d.location.IsIn origin

theorem DeclarationDraft.location_link {h : Hierarchy} {d : DeclarationDraft} {s : Specification}
    {location : Location} {decl : Declaration} (hok : d.link h s location = .ok decl) :
    decl.location = location := by
  obtain ⟨parameters, -, hok⟩ := bind_eq_ok.1 hok
  obtain rfl := pure_eq_ok.1 hok
  rfl

/-- A linked declaration stands at its line of the source. -/
theorem Catalog.isIn_linkDeclaration {c : Catalog} {plans : String → Option Plan} {b : BlockDraft}
    {d : DeclarationDraft} {decl : Declaration} (hok : c.linkDeclaration plans b d = .ok decl) :
    decl.location.IsIn b.source := by
  have hlink : ∀ missing o, b.linkTo c.types d missing o = .ok decl →
      decl.location.IsIn b.source := fun missing o h => by
    cases o with
    | none => cases h
    | some x => exact DeclarationDraft.location_link h ▸ b.isIn_location.atLine d.line
  cases hkind : d.kind with
  | component => exact hlink _ _ (linkDeclaration_component hkind ▸ hok)
  | block => exact hlink _ _ (linkDeclaration_block hkind ▸ hok)

namespace Network

variable {n m : Network}

theorem StandsIn.declaration (hn : n.StandsIn origin) {i : Nat} {d : Declaration}
    (hd : n.declaration? i = some d) : d.location.IsIn origin :=
  hn.declarations d (List.mem_of_getElem? hd)

theorem StandsIn.declarationLocation (hn : n.StandsIn origin) (i : Nat) :
    (n.declarationLocation i).IsIn origin := by
  unfold Network.declarationLocation
  cases hd : n.declaration? i with
  | none => exact hn.location
  | some d => exact hn.declaration hd

theorem StandsIn.of_bare (hn : n.StandsIn origin) (h : m.bare = n.bare) : m.StandsIn origin where
  location := by
    have heq : m.location = n.location := (congrArg Network.location h :)
    exact heq ▸ hn.location
  declarations d hd := by
    have hmem : d.bare ∈ n.bare.declarations := h ▸ List.mem_map_of_mem hd
    obtain ⟨d', hd', hbare⟩ := List.mem_map.1 hmem
    have heq : d'.location = d.location := (congrArg Declaration.location hbare :)
    exact heq ▸ hn.declarations d' hd'

/-! ## Star references and references -/

theorem rejectsIn_expandDeclaration {d : Declaration} (hd : d.location.IsIn origin) :
    RejectsIn origin (n.expandDeclaration d) := by
  unfold expandDeclaration
  split
  · exact .ok _
  · refine (RejectsIn.mapM fun q _ => ?_).bind fun _ _ => .ok _
    unfold expandParameter
    split
    · exact .ok _
    · split
      · refine RejectsIn.bind ?_ fun _ _ => .ok _
        unfold starReferences
        split
        · exact .reject hd rfl
        · split
          · exact .reject hd rfl
          · exact .ok _
      · exact .reject hd rfl

theorem location_expandDeclaration {d d' : Declaration} (hok : n.expandDeclaration d = .ok d') :
    d'.location = d.location := by
  unfold expandDeclaration at hok
  split at hok
  · rw [← Except.ok.inj hok]
  · obtain ⟨_, -, hok⟩ := bind_eq_ok.1 hok
    rw [← pure_eq_ok.1 hok]
    rfl

theorem StandsIn.rejectsIn_expandStars (hn : n.StandsIn origin) :
    RejectsIn origin n.expandStars :=
  (RejectsIn.mapM fun d hd => rejectsIn_expandDeclaration (hn.declarations d hd)).bind
    fun _ _ => .ok _

theorem StandsIn.expandStars (hn : n.StandsIn origin) (hok : n.expandStars = .ok m) :
    m.StandsIn origin := by
  obtain ⟨ds, hds, hok⟩ := bind_eq_ok.1 hok
  obtain rfl := pure_eq_ok.1 hok
  refine ⟨hn.location, fun d' hd' => ?_⟩
  obtain ⟨d, hd, hexpand⟩ := mem_of_mapM_eq_ok hds hd'
  exact location_expandDeclaration hexpand ▸ hn.declarations d hd

theorem rejectsIn_bindSlot {index : String → Option Target} {d : Declaration} {p a : Nat}
    {s : Slot} (hd : d.location.IsIn origin) : RejectsIn origin (n.bindSlot index d p a s) := by
  unfold bindSlot
  split
  · refine RejectsIn.bind ?_ fun _ _ => .ok _
    unfold bindText
    split
    · split
      · exact .ok _
      · exact .reject hd rfl
    · split
      · exact .ok _
      · exact .reject hd rfl
  · exact .ok _

theorem rejectsIn_bindDeclaration {index : String → Option Target} {d : Declaration}
    (hd : d.location.IsIn origin) : RejectsIn origin (n.bindDeclaration index d) :=
  (RejectsIn.mapM fun _ _ =>
    (RejectsIn.mapM fun _ _ => rejectsIn_bindSlot hd).bind fun _ _ => .ok _).bind fun _ _ => .ok _

theorem StandsIn.modifyDeclaration (hn : n.StandsIn origin) {d : Declaration}
    (hd : d.location.IsIn origin) (i : Nat) :
    (n.modifyDeclaration i fun _ => d).StandsIn origin where
  location := hn.location
  declarations e he := by
    obtain ⟨j, hj⟩ := List.mem_iff_getElem?.1 he
    have hj : (n.modifyDeclaration i fun _ => d).declaration? j = some e := hj
    rw [declaration?_modifyDeclaration] at hj
    split at hj
    · obtain ⟨_, -, rfl⟩ := Option.map_eq_some_iff.1 hj
      exact hd
    · exact hn.declaration hj

theorem StandsIn.bindAt {index : String → Option Target} {c c' : Network} {i : Nat}
    (hc : c.StandsIn origin) (hok : n.bindAt index c i = .ok c') : c'.StandsIn origin := by
  obtain ⟨d, hd, hok⟩ := bind_eq_ok.1 hok
  obtain ⟨d', hbind, hok⟩ := bind_eq_ok.1 hok
  obtain ⟨parameters, -, hbind⟩ := bind_eq_ok.1 hbind
  obtain rfl := pure_eq_ok.1 hbind
  obtain rfl := pure_eq_ok.1 hok
  have hlocation : d.location.IsIn origin := hc.declaration (require_eq_ok.1 hd)
  exact hc.modifyDeclaration (d := { d with parameters }) hlocation i

theorem StandsIn.rejectsIn_resolveReferences (hn : n.StandsIn origin) :
    RejectsIn origin n.resolveReferences := by
  refine RejectsIn.bind (RejectsIn.foldlM (fun c : Network => c.StandsIn origin) (fun i c hc =>
    ⟨(RejectsIn.require _ _).bind fun d hd => ?_, fun c' hstep => hc.bindAt hstep⟩) hn)
    fun _ _ => (RejectsIn.mapM fun b _ => ?_).bind fun _ _ => .ok _
  · exact (rejectsIn_bindDeclaration (hc.declaration (require_eq_ok.1 hd))).bind fun _ _ => .ok _
  · unfold bindOutput
    split
    · exact .ok _
    · exact .reject hn.location rfl

theorem StandsIn.resolveReferences (hn : n.StandsIn origin) (hok : n.resolveReferences = .ok m) :
    m.StandsIn origin := by
  obtain ⟨c, hc, hok⟩ := bind_eq_ok.1 hok
  obtain ⟨outputs, -, hok⟩ := bind_eq_ok.1 hok
  obtain rfl := pure_eq_ok.1 hok
  have hstands := foldlM_invariant (fun _ (c : Network) => c.StandsIn origin)
    (fun _ _ _ _ hc hstep => hc.bindAt hstep) hn hc
  exact ⟨hstands.location, hstands.declarations⟩

theorem StandsIn.rejectsIn_sort (hn : n.StandsIn origin) : RejectsIn origin n.sort := by
  rw [sort_eq]
  split
  · refine .reject ?_ rfl
    cases (n.cycleAmong _).head? with
    | none => exact hn.location
    | some i => exact hn.declarationLocation i
  · exact .ok _

end Network

/-! ## Freezing -/

theorem Declaration.rejectsIn_freeze {types : Hierarchy} {type : ClassType} {d : Declaration}
    {tasks : List FreezeTask} (hd : d.location.IsIn origin) :
    RejectsIn origin (d.freeze types type tasks) := by
  fun_induction freeze types type tasks d with
  | case1 d => exact .ok d
  | case2 => exact .breach _
  | case3 d p a rest s hs hfrozen ih => exact ih hd
  | case4 => exact .reject hd rfl
  | case5 d p a rest s hs hfrozen merged hmerged ih => exact ih hd
  | case6 => exact .breach _
  | case7 d k rest o ho ih =>
    simp only [List.map_attach_eq_pmap, List.pmap_eq_map] at ih
    exact ih hd

namespace Network

variable {n m : Network}

theorem StandsIn.rejectsIn_freezeAt (hn : n.StandsIn origin) {id : SlotId} :
    RejectsIn origin (n.freezeAt id) := by
  refine (RejectsIn.require _ _).bind fun s _ => ?_
  split
  · exact .ok _
  · refine RejectsIn.bind ?_ fun type _ => ?_
    · unfold freezingType?
      split
      · exact .ok _
      · exact (RejectsIn.require _ _).bind fun _ _ => .ok _
      · exact .ok _
    · cases type with
      | none => exact .ok _
      | some type =>
        exact (RejectsIn.require _ _).bind fun d hd =>
          (Declaration.rejectsIn_freeze (hn.declaration (require_eq_ok.1 hd))).bind
            fun _ _ => .ok _

theorem StandsIn.rejectsIn_freezePipelines (hn : n.StandsIn origin) :
    RejectsIn origin n.freezePipelines :=
  RejectsIn.foldlM (fun c : Network => c.StandsIn origin) (fun _ _ hc =>
    ⟨hc.rejectsIn_freezeAt, fun _ hstep => hc.of_bare (bare_freezeAt hstep)⟩) hn

/-! ## Inference -/

theorem rejectsIn_restrict {location : Location} (hl : location.IsIn origin)
    {allowed : Multiplicity} {result : List Multiplicity} {input : Nat} :
    RejectsIn origin (n.restrict location allowed result input) := by
  refine (RejectsIn.require _ _).bind fun _ _ => ?_
  dsimp only
  split
  · exact .reject hl rfl
  · exact .ok _

theorem rejectsIn_next (u : InputUse) (inputs : List Nat) : RejectsIn origin (u.next inputs) := by
  unfold InputUse.next
  split
  · exact .breach _
  · exact .ok _

theorem rejectsIn_inferFormal {d : Declaration} (hd : d.location.IsIn origin)
    {result : List Multiplicity} {f : FormalParameter} {occurrences : List Parameter} :
    RejectsIn origin (n.inferFormal d result f occurrences) := by
  refine (RejectsIn.foldlM_all fun p u => ?_).bind fun u _ => ?_
  · unfold addOccurrence
    split
    · exact .ok _
    · split
      · exact .reject hd rfl
      · split
        · exact rejectsIn_next u _
        · split
          · exact .reject hd rfl
          · exact rejectsIn_next u _
  · dsimp only
    split
    · refine RejectsIn.bind ?_ fun _ _ => .ok _
      unfold checkOccurrences
      split
      · exact .reject hd rfl
      · split
        · exact .reject hd rfl
        · exact .ok _
    · exact (RejectsIn.require _ _).bind fun _ _ =>
        RejectsIn.foldlM_all fun _ _ => rejectsIn_restrict hd

theorem StandsIn.rejectsIn_inferMultiplicities (hn : n.StandsIn origin) :
    RejectsIn origin n.inferMultiplicities := by
  refine (RejectsIn.foldlM_all fun i _ => ?_).bind fun _ _ => RejectsIn.foldlM_all fun o _ => ?_
  · exact (RejectsIn.require _ _).bind fun d hd =>
      RejectsIn.foldlM_all fun _ _ => rejectsIn_inferFormal (hn.declaration (require_eq_ok.1 hd))
  · unfold inferOutput
    split
    · exact rejectsIn_restrict hn.location
    · exact .ok _

theorem rejectsIn_visit {table : List (Target × List Referrer)}
    {step : σ → Referrer → Except Fault σ} (hstep : ∀ s r, RejectsIn origin (step s r)) :
    ∀ {bound : Nat} {t : Target} {s : σ}, RejectsIn origin (n.visit table step bound t s)
  | 0, _, _ => .breach _
  | _ + 1, _, _ => RejectsIn.foldlM_all fun r s => (hstep s r).bind fun _ _ =>
      RejectsIn.foldlM_all fun _ _ => rejectsIn_visit hstep

theorem StandsIn.rejectsIn_inferInputs (hn : n.StandsIn origin) :
    RejectsIn origin n.inferInputs := by
  refine RejectsIn.mapM fun input _ => ((rejectsIn_visit fun t r => ?_).bind
    fun _ _ => .ok _).bind fun _ _ => .ok _
  cases r with
  | blockOutput => exact .ok _
  | slot id =>
    refine (RejectsIn.require _ _).bind fun s _ => ?_
    split
    · exact .ok _
    · exact .reject (hn.declarationLocation _) rfl

theorem rejectsIn_providedWithin :
    ∀ {bound : Nat} {t : Target}, RejectsIn origin (n.providedWithin bound t)
  | 0, _ => .breach _
  | _ + 1, .input _ => (RejectsIn.require _ _).bind fun _ _ => .ok _
  | _ + 1, .output _ => by
    refine (RejectsIn.require _ _).bind fun d _ => (RejectsIn.require _ _).bind fun o _ =>
      (RejectsIn.foldlM_all fun x _ => (RejectsIn.require _ _).bind fun s _ => ?_).bind
        fun _ _ => .ok _
    dsimp only
    split
    · exact rejectsIn_providedWithin.bind fun _ _ => .ok _
    · exact .ok _

theorem rejectsIn_inferOutputTypes : RejectsIn origin n.inferOutputTypes := by
  refine RejectsIn.mapM fun o _ => ?_
  unfold inferOutputType
  split
  · exact rejectsIn_providedWithin
  · exact .ok _

/-! ## The check of types -/

theorem StandsIn.rejectsIn_checkTypes (hn : n.StandsIn origin) :
    RejectsIn origin n.checkTypes := by
  refine RejectsIn.foldlM (fun c : Network => c.StandsIn origin) (fun id c hc =>
    ⟨(RejectsIn.require _ _).bind fun s _ => ?_,
      fun _ hstep => hc.of_bare (bare_checkAt hstep)⟩) hn
  split
  · refine (RejectsIn.require _ _).bind fun _ _ => ?_
    split
    · exact .ok _
    · exact .reject (hc.declarationLocation _) rfl
  · exact .ok _

/-! ## All stages -/

/-- Completing a network only rejects it in its source. -/
theorem StandsIn.rejectsIn_complete (hn : n.StandsIn origin) : RejectsIn origin n.complete := by
  refine hn.rejectsIn_expandStars.bind fun e hexpand => ?_
  have he := hn.expandStars hexpand
  refine he.rejectsIn_resolveReferences.bind fun r hresolve => ?_
  have hr := he.resolveReferences hresolve
  refine hr.rejectsIn_sort.bind fun order _ => ?_
  have hsorted : (r.setOrder order).StandsIn origin := ⟨hr.location, hr.declarations⟩
  refine hsorted.rejectsIn_freezePipelines.bind fun f hfreeze => ?_
  have hf := hsorted.of_bare (bare_freezePipelines hfreeze)
  refine hf.rejectsIn_inferMultiplicities.bind fun ms _ => ?_
  have hmultiplied : (f.setMultiplicities ms).StandsIn origin := ⟨hf.location, hf.declarations⟩
  refine hmultiplied.rejectsIn_inferInputs.bind fun ts _ => ?_
  have htyped : ((f.setMultiplicities ms).setInputs ts).StandsIn origin := by
    rw [setInputs_eq]
    exact ⟨hf.location, hf.declarations⟩
  refine rejectsIn_inferOutputTypes.bind fun os _ => ?_
  exact StandsIn.rejectsIn_checkTypes ⟨htyped.location, htyped.declarations⟩

end Network

/-- A block whose declarations are linked is only rejected in its source. -/
theorem Catalog.rejectsIn_planOf {c : Catalog} {plans : String → Option Plan} {b : BlockDraft}
    {ds : List Declaration} (hds : b.declarations.mapM (c.linkDeclaration plans b) = .ok ds) :
    RejectsIn b.source (b.planOf c.types ds) := by
  refine (Network.StandsIn.rejectsIn_complete ⟨b.isIn_location, fun decl hdecl => ?_⟩).map _
  obtain ⟨d, -, hlink⟩ := mem_of_mapM_eq_ok hds hdecl
  exact isIn_linkDeclaration hlink

end Blockwork
