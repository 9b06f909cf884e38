import Blockwork.Proofs.LibraryStates

/-!
# Accepted drafts

A draft is accepted part by part, and only if its inputs have different names, as have the
attributes of each input, its declarations and its outputs (`BlockDraft.Distinct`). No stage of
compilation renames an input or an output, so the interface of the plan has the names of the draft
(`Assembly.names_interface`).

What a catalog provides are its components and the plans of accepted drafts
(`Catalog.Assembled`): the outputs of each have different names, and a library serves nothing else
(`Library.resolver_assembled`).
-/

namespace Blockwork

/-! ## Names that differ -/

namespace BlockDraft

/-- What has to differ by name does. -/
structure Distinct (b : BlockDraft) : Prop where
  inputs : (b.params.map BlockParamDraft.name).Nodup
  attributes : ∀ p ∈ b.params, (p.attributes.map BlockAttrDraft.name).Nodup
  declarations : (b.declarations.map DeclarationDraft.name).Nodup
  outputs : (b.outputs.map OutputDraft.name).Nodup

theorem repeated?_eq_none {names : List String} : ∀ {seen : List String},
    repeated? seen names = none ↔ names.Nodup ∧ names.Disjoint seen := by
  induction names with
  | nil => simp [repeated?]
  | cons s names ih =>
    intro seen
    rw [nodup_disjoint_cons_iff, ← ih, repeated?]
    by_cases hs : s ∈ seen <;> simp [hs]

theorem nodup_map_concat {α : Type} {f : α → String} {l : List α} {a : α}
    (hl : (l.map f).Nodup) (h : (l.any fun x => f x == f a) = false) :
    ((l ++ [a]).map f).Nodup := by
  rw [List.map_append, List.nodup_append]
  refine ⟨hl, List.nodup_singleton _, fun s hs t ht hst => ?_⟩
  obtain ⟨x, hx, rfl⟩ := List.mem_map.1 hs
  obtain rfl := List.mem_singleton.1 ht
  simpa [hst] using List.any_eq_false.1 h x hx

variable {b b' : BlockDraft}

theorem Distinct.acceptParam (hb : b.Distinct) {p : BlockParamDraft}
    (h : b.acceptParam p = .ok b') : b'.Distinct := by
  obtain rfl := eq_of_acceptParam h
  obtain ⟨_, hcheck, -⟩ := bind_eq_ok.1 h
  unfold checkParam at hcheck
  split at hcheck
  · cases hcheck
  · rename_i hnew
    split at hcheck
    · cases hcheck
    · rename_i hattrs
      refine ⟨nodup_map_concat hb.inputs (by simpa using hnew), fun q hq => ?_, hb.declarations,
        hb.outputs⟩
      rcases List.mem_append.1 hq with hq | hq
      · exact hb.attributes q hq
      · rw [List.mem_singleton.1 hq]
        exact (repeated?_eq_none.1 hattrs).1

theorem Distinct.acceptDeclaration (hb : b.Distinct) {d : DeclarationDraft}
    (h : b.acceptDeclaration d = .ok b') : b'.Distinct := by
  obtain rfl := eq_of_acceptDeclaration h
  obtain ⟨_, hcheck, -⟩ := bind_eq_ok.1 h
  unfold checkDeclaration at hcheck
  split at hcheck
  · cases hcheck
  · rename_i hnew
    exact ⟨hb.inputs, hb.attributes, nodup_map_concat hb.declarations (by simpa using hnew),
      hb.outputs⟩

theorem Distinct.acceptOutput (hb : b.Distinct) {o : OutputDraft}
    (h : b.acceptOutput o = .ok b') : b'.Distinct := by
  obtain rfl := eq_of_acceptOutput h
  obtain ⟨_, hcheck, -⟩ := bind_eq_ok.1 h
  unfold checkOutput at hcheck
  split at hcheck
  · cases hcheck
  · rename_i hnew
    exact ⟨hb.inputs, hb.attributes, hb.declarations,
      nodup_map_concat hb.outputs (by simpa using hnew)⟩

/-- In a draft whose parts are all accepted, what has to differ does. -/
theorem distinct_of_acceptAll (h : b.acceptAll = .ok b') : b'.Distinct := by
  unfold acceptAll at h
  simp only [bind_eq_ok] at h
  obtain ⟨withParams, hparams, withDeclarations, hdeclarations, houtputs⟩ := h
  have hempty : Distinct { b with params := [], declarations := [], outputs := [] } :=
    ⟨List.nodup_nil, by simp, List.nodup_nil, List.nodup_nil⟩
  have hparams : withParams.Distinct :=
    foldlM_invariant (fun _ e => Distinct e) (fun _ _ _ _ he hstep => he.acceptParam hstep)
      hempty hparams
  have hdeclarations : withDeclarations.Distinct :=
    foldlM_invariant (fun _ e => Distinct e) (fun _ _ _ _ he hstep => he.acceptDeclaration hstep)
      hparams hdeclarations
  exact foldlM_invariant (fun _ e => Distinct e) (fun _ _ _ _ he hstep => he.acceptOutput hstep)
    hdeclarations houtputs

end BlockDraft

/-- An assembly has the draft that was accepted, and is open. -/
theorem Assembly.ofDraft_eq_ok {b : BlockDraft} {a : Assembly} (h : Assembly.ofDraft b = .ok a) :
    a = ⟨b, .growing⟩ ∧ b.Distinct := by
  obtain ⟨b', hb', rfl⟩ := map_eq_ok.1 h
  have hdistinct := BlockDraft.distinct_of_acceptAll hb'
  obtain rfl := BlockDraft.eq_of_acceptAll hb'
  exact ⟨rfl, hdistinct⟩

/-- The interface of a plan has the parameter `condition`, and the names of the draft. -/
theorem Assembly.names_interface {σ : Type} {r : Resolver σ} {b : BlockDraft} {a : Assembly} {s : σ}
    {p : Plan} (ha : Assembly.ofDraft b = .ok a) (h : ((a.compile r).run s).1.1 = .ok p) :
    p.interface.parameterNames =
      (Condition.parameterName, [Condition.valueName, Condition.invertName]) :: b.inputNames ∧
      p.interface.outputs.map FormalOutput.name = b.outputs.map OutputDraft.name := by
  have hdraft : a.draft = b := congrArg Assembly.draft (ofDraft_eq_ok ha).1
  exact hdraft ▸ BlockDraft.names_compile (compile_eq_ok h)

/-! ## What is assembled with a catalog -/

/-- What a catalog provides: its components, and the plans of accepted drafts. -/
inductive Catalog.Assembled (c : Catalog) : Specification → Prop
  | component {x : Component} (hx : x ∈ c.components) : Assembled c ⟨x.name, false, x.interface⟩
  | block {σ : Type} {r : Resolver σ} {b : BlockDraft} {a : Assembly} {s : σ} {p : Plan}
    (ha : Assembly.ofDraft b = .ok a) (hok : ((a.compile r).run s).1.1 = .ok p) :
    Assembled c p.specification

namespace Catalog

variable {c : Catalog}

/-- The outputs of what is assembled have different names. -/
theorem Assembled.nodup_outputs (hc : c.Registered) {x : Specification} (hx : c.Assembled x) :
    (x.interface.outputs.map FormalOutput.name).Nodup := by
  cases hx with
  | @component x hx =>
    obtain ⟨d, hbuild⟩ := hc.exists_build x hx
    unfold ComponentDraft.build at hbuild
    obtain ⟨type, -, hbuild⟩ := bind_eq_ok.1 hbuild
    obtain ⟨parameters, -, hbuild⟩ := bind_eq_ok.1 hbuild
    obtain rfl := pure_eq_ok.1 hbuild
    exact List.nodup_singleton _
  | @block _ _ _ _ _ p ha hok =>
    show (p.interface.outputs.map FormalOutput.name).Nodup
    rw [(Assembly.names_interface ha hok).2]
    exact (Assembly.ofDraft_eq_ok ha).2.outputs

end Catalog

/-! ## Libraries of accepted drafts -/

namespace Library

variable {c : Catalog} {l : Library}

/-- The blocks still to be compiled are accepted drafts, and the plans are plans of such. -/
abbrev Accepted (c : Catalog) (l : Library) : Prop :=
  l.Holds c (fun _ a => ∃ b, Assembly.ofDraft b = .ok a) fun _ p => c.Assembled p.specification

/-- Accepted drafts compile to what is assembled with the catalog. -/
theorem compiles_assembled (c : Catalog) :
    Compiles c (fun _ a => ∃ b, Assembly.ofDraft b = .ok a)
      fun _ p => c.Assembled p.specification := by
  rintro r - a hr ⟨b, hb⟩ s hs
  have hgood := BlockDraft.ensures_good
    (fun name => (hr.block name).mono fun _ _ => trivial) a.draft
  have hgrowing : a.state = .growing := congrArg Assembly.state (Assembly.ofDraft_eq_ok hb).1
  refine ⟨(BlockDraft.ensures_compile hgood s hs).1, fun p hok => .block (r := r) (s := s) hb ?_⟩
  rw [Assembly.run_compile r hgrowing]
  exact hok

/-- A library serves plans of accepted drafts only. -/
theorem resolver_assembled (hl : l.catalog = c) :
    l.resolver.Within c (Accepted c) c.Assembled :=
  ((compiles_assembled c).resolver hl).within fun _ _ => id

/-- The library of a bundle holds accepted drafts. -/
theorem accepted_ofBundle {b : Bundle} (hok : ofBundle b = .ok l) : l.Accepted l.catalog :=
  (holds_ofBundle hok fun x _ _ hx => ⟨x, hx⟩).2

end Library

end Blockwork
