import Blockwork.Proofs.AcceptedDrafts

/-!
# Qualified names

An attribute of an input is referred to by two names with a dot between, and an output by the name
of its declaration, followed by a dot and its own name if it has one. The names may have dots
themselves, so that `a.b` with `c` and `a` with `b.c` are referred to alike.

Two outputs, or two attributes of inputs, share their name just if one of them reaches into the
other in this way, and everything that can be referred to is found by its name just if no two of a
kind share it (`BlockDraft.names_shared_iff`).
-/

namespace Blockwork

/-! ## Names with a dot between -/

/-- Two names with a dot between. -/
def dotted (outer inner : String) : String :=
  outer ++ "." ++ inner

/-- The path to an output: the name of the declaration alone if the output has none. -/
def outputPath (declaration output : String) : String :=
  if output.isEmpty then declaration else dotted declaration output

theorem toList_dotted (outer inner : String) :
    (dotted outer inner).toList = outer.toList ++ '.' :: inner.toList := by
  simp [dotted]

theorem referenceName_eq (declaration output : String) :
    referenceName declaration output = "@" ++ outputPath declaration output := by
  unfold referenceName outputPath dotted
  split
  · rfl
  · simp only [String.append_assoc]
    rfl

theorem referenceName_eq_iff {d o d' o' : String} :
    referenceName d o = referenceName d' o' ↔ outputPath d o = outputPath d' o' := by
  rw [referenceName_eq, referenceName_eq, String.append_right_inj]

theorem dotted_ne_self (outer inner : String) : dotted outer inner ≠ outer := fun h => by
  have hlength := congrArg (fun s : String => s.toList.length) h
  simp [toList_dotted] at hlength

theorem dotted_assoc (a b c : String) : dotted (dotted a b) c = dotted a (dotted b c) := by
  simp [dotted, String.append_assoc]

theorem dotted_right_inj {outer inner inner' : String} :
    dotted outer inner = dotted outer inner' ↔ inner = inner' := by
  simp [dotted, String.append_right_inj]

/-- Names below different ones are the same with a dot between just if one of the inner names begins
with what the other outer name is longer by. -/
theorem dotted_eq_dotted_iff {a b a' b' : String} (hne : a ≠ a') : dotted a b = dotted a' b' ↔
    (∃ m, a' = dotted a m ∧ b = dotted m b') ∨ ∃ m, a = dotted a' m ∧ b' = dotted m b := by
  -- The shorter outer name ends before a dot of the longer one.
  have hleft : ∀ {a b a' b' : String}, a ≠ a' → ∀ c, a'.toList = a.toList ++ c →
      '.' :: b.toList = c ++ '.' :: b'.toList → ∃ m, a' = dotted a m ∧ b = dotted m b' := by
    intro a b a' b' hne c hc hb
    cases c with
    | nil => exact absurd (String.toList_inj.1 (hc.trans (List.append_nil _))).symm hne
    | cons x m =>
      obtain ⟨rfl, htail⟩ := List.cons.inj hb
      refine ⟨String.ofList m, String.toList_inj.1 ?_, String.toList_inj.1 ?_⟩
      · rw [toList_dotted, String.toList_ofList, hc]
      · exact htail.trans (by rw [toList_dotted, String.toList_ofList]; rfl)
  constructor
  · intro h
    have h := congrArg String.toList h
    rw [toList_dotted, toList_dotted] at h
    rcases List.append_eq_append_iff.1 h with ⟨c, hc, hb⟩ | ⟨c, hc, hb⟩
    · exact .inl (hleft hne c hc hb)
    · exact .inr (hleft hne.symm c hc hb)
  · rintro (⟨m, rfl, rfl⟩ | ⟨m, rfl, rfl⟩)
    · exact (dotted_assoc a m b').symm
    · exact dotted_assoc a' m b

/-! ## Names that reach into others -/

/-- The attribute of an input is referred to as one of another: the name of that input is longer by
a part that the name of the attribute begins with. -/
def InputReaches (param attr param' attr' : String) : Prop :=
  ∃ middle, param' = dotted param middle ∧ attr = dotted middle attr'

/-- The output of a declaration is referred to as one of another: the name of that declaration is
longer by a part that the name of the output begins with, or consists of if the other output has no
name. -/
def OutputReaches (declaration output declaration' output' : String) : Prop :=
  output ≠ "" ∧ ∃ middle, declaration' = dotted declaration middle ∧
    output = outputPath middle output'

theorem outputPath_empty (declaration : String) : outputPath declaration "" = declaration :=
  rfl

theorem outputPath_of_ne {declaration output : String} (h : output ≠ "") :
    outputPath declaration output = dotted declaration output :=
  if_neg (by simpa using h)

theorem outputPath_right_inj {declaration output output' : String} :
    outputPath declaration output = outputPath declaration output' ↔ output = output' := by
  refine ⟨fun h => ?_, congrArg _⟩
  by_cases ho : output = ""
  · by_cases ho' : output' = ""
    · rw [ho, ho']
    · rw [ho, outputPath_empty, outputPath_of_ne ho'] at h
      exact absurd h.symm (dotted_ne_self _ _)
  · by_cases ho' : output' = ""
    · rw [ho', outputPath_empty, outputPath_of_ne ho] at h
      exact absurd h (dotted_ne_self _ _)
    · rw [outputPath_of_ne ho, outputPath_of_ne ho'] at h
      exact dotted_right_inj.1 h

theorem outputPath_eq_iff {d o d' o' : String} (hne : d ≠ d') : outputPath d o = outputPath d' o' ↔
    OutputReaches d o d' o' ∨ OutputReaches d' o' d o := by
  unfold OutputReaches
  by_cases ho : o = "" <;> by_cases ho' : o' = ""
  · simp [ho, ho', outputPath_empty, hne]
  · simp [ho, ho', outputPath_empty, outputPath_of_ne ho']
  · simp [ho, ho', outputPath_empty, outputPath_of_ne ho, eq_comm (b := d')]
  · simp [ho, ho', outputPath_of_ne, dotted_eq_dotted_iff hne]

/-- Names of declarations without dots are not reached into. -/
theorem not_outputReaches {d o d' o' : String} (h : '.' ∉ d'.toList) : ¬OutputReaches d o d' o' := by
  rintro ⟨-, middle, rfl, -⟩
  simp [toList_dotted] at h

theorem not_inputReaches {p a p' a' : String} (h : '.' ∉ p'.toList) : ¬InputReaches p a p' a' := by
  rintro ⟨middle, rfl, -⟩
  simp [toList_dotted] at h

/-! ## Looking names up -/

theorem index_eq_of_nodup {α β : Type} {f : α → β} {l : List α} (h : (l.map f).Nodup) {i j : Nat}
    {a b : α} (ha : l[i]? = some a) (hb : l[j]? = some b) (hab : f a = f b) : i = j := by
  refine (List.getElem?_inj ?_ h).1 ?_
  · rw [List.length_map]
    exact (List.getElem?_eq_some_iff.1 ha).1
  · rw [List.getElem?_map, List.getElem?_map, ha, hb, Option.map_some, Option.map_some, hab]

namespace Network

variable {n : Network} {reference : String}

/-- No two outputs share their name. -/
def OutputsApart (n : Network) : Prop :=
  ∀ id id' o o', n.output? id = some o → n.output? id' = some o' →
    o.referenceName = o'.referenceName → id = id'

/-- No two attributes of inputs share their name. -/
def InputsApart (n : Network) : Prop :=
  ∀ id id' i i', n.input? id = some i → n.input? id' = some i' →
    i.referenceName = i'.referenceName → id = id'

/-- No attribute of an input has the name. -/
def Unshadowed (n : Network) (reference : String) : Prop :=
  ∀ id i, n.input? id = some i → i.referenceName ≠ reference

/-- Every attribute of an input is what its name refers to. -/
def InputsFound (n : Network) : Prop :=
  ∀ id i, n.input? id = some i → n.resolve? i.referenceName = some (.input id)

/-- Every output is what its name refers to, unless an attribute of an input has it. -/
def OutputsFound (n : Network) : Prop :=
  ∀ id o, n.output? id = some o → n.Unshadowed o.referenceName →
    n.resolve? o.referenceName = some (.output id)

theorem mem_outputIds {id : OutputId} {o : Output} (ho : n.output? id = some o) :
    id ∈ n.outputIds := by
  obtain ⟨d, hd, ho⟩ := output?_eq_some.1 ho
  refine List.mem_flatMap.2 ⟨(d, id.declaration), List.mk_mem_zipIdx_iff_getElem?.2 hd, ?_⟩
  exact List.mem_map.2 ⟨id.output, List.mem_range.2 (List.getElem?_eq_some_iff.1 ho).1, rfl⟩

/-- Inputs are looked for before outputs, and later ones before earlier ones. -/
theorem resolve?_eq (n : Network) (reference : String) : n.resolve? reference =
    ((n.inputIds.reverse.find? fun id => n.targetName? (.input id) == some reference).map
      Target.input).or
    ((n.outputIds.reverse.find? fun id => n.targetName? (.output id) == some reference).map
      Target.output) := by
  simp only [resolve?, targets, List.reverse_append, List.find?_append, ← List.map_reverse,
    List.find?_map, Function.comp_def]

/-- A name that attributes of inputs have refers to one of them. -/
theorem exists_input_of_resolve? {id : InputId} {i : BlockInput} (hi : n.input? id = some i)
    (hname : i.referenceName = reference) : ∃ id' i', n.resolve? reference = some (.input id') ∧
      n.input? id' = some i' ∧ i'.referenceName = reference := by
  have hsome : (n.inputIds.reverse.find? fun id => n.targetName? (.input id) == some reference).isSome
      = true := by
    rw [List.find?_isSome]
    exact ⟨id, List.mem_reverse.2 (mem_inputIds hi), by simp [targetName?, hi, hname]⟩
  obtain ⟨id', hid'⟩ := Option.isSome_iff_exists.1 hsome
  have hname' : n.targetName? (.input id') = some reference := by simpa using List.find?_some hid'
  obtain ⟨i', hi', hname'⟩ := Option.map_eq_some_iff.1 hname'
  exact ⟨id', i', by rw [resolve?_eq, hid']; rfl, hi', hname'⟩

/-- A name that outputs have but no attribute of an input refers to one of the outputs. -/
theorem exists_output_of_resolve? (hnone : n.Unshadowed reference) {id : OutputId} {o : Output}
    (ho : n.output? id = some o) (hname : o.referenceName = reference) :
    ∃ id' o', n.resolve? reference = some (.output id') ∧ n.output? id' = some o' ∧
      o'.referenceName = reference := by
  have hinputs : (n.inputIds.reverse.find? fun id => n.targetName? (.input id) == some reference)
      = none := by
    refine List.find?_eq_none.2 fun id' _ hid' => ?_
    obtain ⟨i, hi, hname⟩ := Option.map_eq_some_iff.1 (beq_iff_eq.1 hid')
    exact hnone id' i hi hname
  have hsome : (n.outputIds.reverse.find? fun id =>
      n.targetName? (.output id) == some reference).isSome = true := by
    rw [List.find?_isSome]
    exact ⟨id, List.mem_reverse.2 (mem_outputIds ho), by simp [targetName?, ho, hname]⟩
  obtain ⟨id', hid'⟩ := Option.isSome_iff_exists.1 hsome
  have hname' : n.targetName? (.output id') = some reference := by simpa using List.find?_some hid'
  obtain ⟨o', ho', hname'⟩ := Option.map_eq_some_iff.1 hname'
  exact ⟨id', o', by rw [resolve?_eq, hinputs, hid']; rfl, ho', hname'⟩

theorem inputsFound_iff : n.InputsFound ↔ n.InputsApart := by
  constructor
  · intro hfound id id' i i' hi hi' hname
    have hid := hfound id i hi
    rw [hname, hfound id' i' hi'] at hid
    exact (Target.input.inj (Option.some.inj hid)).symm
  · intro hapart id i hi
    obtain ⟨id', i', hresolve, hi', hname⟩ := exists_input_of_resolve? hi rfl
    rw [hresolve, hapart id' id i' i hi' hi hname]

theorem outputsFound_iff : n.OutputsFound ↔ ∀ id id' o o', n.output? id = some o →
    n.output? id' = some o' → n.Unshadowed o.referenceName →
      o.referenceName = o'.referenceName → id = id' := by
  constructor
  · intro hfound id id' o o' ho ho' hnone hname
    have hid := hfound id o ho hnone
    rw [hname, hfound id' o' ho' (hname ▸ hnone)] at hid
    exact (Target.output.inj (Option.some.inj hid)).symm
  · intro hapart id o ho hnone
    obtain ⟨id', o', hresolve, ho', hname⟩ := exists_output_of_resolve? hnone ho rfl
    rw [hresolve, hapart id id' o o' ho ho' hnone hname.symm]

end Network

/-! ## The names of a linked network -/

/-- The outputs are referred to by the name of the declaration and their own. -/
def Declaration.Qualified (d : Declaration) : Prop :=
  ∀ o ∈ d.outputs, o.referenceName = referenceName d.name o.name

/-- The attributes are referred to by the name of the input and their own, which differ. -/
structure BlockParameter.Named (p : BlockParameter) : Prop where
  referenceName : ∀ i ∈ p.attributes, i.referenceName = "@" ++ dotted p.name i.name
  nodup : (p.attributes.map BlockInput.name).Nodup

/-- Declarations and inputs have different names, and what belongs to them is referred to by these
and by names of its own. -/
structure Network.Named (n : Network) : Prop where
  declarations : (n.declarations.map Declaration.name).Nodup
  qualified : ∀ d ∈ n.declarations, d.Qualified
  outputs : ∀ d ∈ n.declarations, (d.outputs.map Output.name).Nodup
  params : (n.params.map BlockParameter.name).Nodup
  inputs : ∀ p ∈ n.params, p.Named

namespace Network.Named

variable {n : Network} (hn : n.Named)
include hn

/-- Two outputs share their name just if one of them reaches into the declaration of the other. -/
theorem output_name_eq_iff {id id' : OutputId} {d d' : Declaration} {o o' : Output} (hne : id ≠ id')
    (hd : n.declaration? id.declaration = some d) (ho : d.outputs[id.output]? = some o)
    (hd' : n.declaration? id'.declaration = some d') (ho' : d'.outputs[id'.output]? = some o') :
    o.referenceName = o'.referenceName ↔
      OutputReaches d.name o.name d'.name o'.name ∨ OutputReaches d'.name o'.name d.name o.name := by
  rw [hn.qualified d (List.mem_of_getElem? hd) o (List.mem_of_getElem? ho),
    hn.qualified d' (List.mem_of_getElem? hd') o' (List.mem_of_getElem? ho'), referenceName_eq_iff]
  by_cases heq : id.declaration = id'.declaration
  · -- Outputs of one declaration have names of their own.
    obtain rfl : d = d' := Option.some.inj (hd.symm.trans (heq ▸ hd'))
    have hname : o.name ≠ o'.name := fun hname => hne <| by
      obtain ⟨i, k⟩ := id
      obtain ⟨i', k'⟩ := id'
      obtain rfl : i = i' := heq
      obtain rfl : k = k' := index_eq_of_nodup
        (hn.outputs d (List.mem_of_getElem? hd)) ho ho' hname
      rfl
    have hself : ∀ o o', ¬OutputReaches d.name o d.name o' := fun o o' ⟨_, m, hm, _⟩ =>
      dotted_ne_self d.name m hm.symm
    rw [outputPath_right_inj]
    exact iff_of_false hname (by simp [hself])
  · exact outputPath_eq_iff fun hname => heq (index_eq_of_nodup hn.declarations hd hd' hname)

/-- Two attributes of inputs share their name just if one of them reaches into the input of the
other. -/
theorem input_name_eq_iff {id id' : InputId} {p p' : BlockParameter} {i i' : BlockInput}
    (hne : id ≠ id') (hp : n.params[id.param]? = some p) (hi : p.attributes[id.attr]? = some i)
    (hp' : n.params[id'.param]? = some p') (hi' : p'.attributes[id'.attr]? = some i') :
    i.referenceName = i'.referenceName ↔
      InputReaches p.name i.name p'.name i'.name ∨ InputReaches p'.name i'.name p.name i.name := by
  have hnamed := hn.inputs p (List.mem_of_getElem? hp)
  rw [hnamed.referenceName i (List.mem_of_getElem? hi),
    (hn.inputs p' (List.mem_of_getElem? hp')).referenceName i' (List.mem_of_getElem? hi'),
    String.append_right_inj]
  by_cases heq : id.param = id'.param
  · obtain rfl : p = p' := Option.some.inj (hp.symm.trans (heq ▸ hp'))
    have hname : i.name ≠ i'.name := fun hname => hne <| by
      obtain ⟨k, a⟩ := id
      obtain ⟨k', a'⟩ := id'
      obtain rfl : k = k' := heq
      obtain rfl : a = a' := index_eq_of_nodup hnamed.nodup hi hi' hname
      rfl
    have hself : ∀ a a', ¬InputReaches p.name a p.name a' := fun a a' ⟨m, hm, _⟩ =>
      dotted_ne_self p.name m hm.symm
    rw [dotted_right_inj]
    exact iff_of_false hname (by simp [hself])
  · exact dotted_eq_dotted_iff fun hname => heq (index_eq_of_nodup hn.params hp hp' hname)

/-- Where no declaration has a dot in its name, no two outputs share their name. -/
theorem outputsApart (hdots : ∀ d ∈ n.declarations, '.' ∉ d.name.toList) : n.OutputsApart := by
  intro id id' o o' ho ho' hname
  obtain ⟨d, hd, ho⟩ := output?_eq_some.1 ho
  obtain ⟨d', hd', ho'⟩ := output?_eq_some.1 ho'
  by_contra hne
  rcases (hn.output_name_eq_iff hne hd ho hd' ho').1 hname with h | h
  · exact not_outputReaches (hdots d' (List.mem_of_getElem? hd')) h
  · exact not_outputReaches (hdots d (List.mem_of_getElem? hd)) h

/-- Where no input has a dot in its name, no two attributes of inputs share their name. -/
theorem inputsApart (hdots : ∀ p ∈ n.params, '.' ∉ p.name.toList) : n.InputsApart := by
  intro id id' i i' hi hi' hname
  obtain ⟨p, hp, hi⟩ := Option.bind_eq_some_iff.1 hi
  obtain ⟨p', hp', hi'⟩ := Option.bind_eq_some_iff.1 hi'
  by_contra hne
  rcases (hn.input_name_eq_iff hne hp hi hp' hi').1 hname with h | h
  · exact not_inputReaches (hdots p' (List.mem_of_getElem? hp')) h
  · exact not_inputReaches (hdots p (List.mem_of_getElem? hp)) h

end Network.Named

/-! ## Linking -/

/-- Indexing pipelines changes nothing about outputs but what feeds them. -/
theorem Declaration.map_indexPipelines {α : Type} {f : Output → α}
    (hf : ∀ o fedBy, f { o with fedBy } = f o) (d : Declaration) :
    d.indexPipelines.outputs.map f = d.outputs.map f := by
  refine List.ext_getElem? fun k => ?_
  simp only [indexPipelines, List.getElem?_map, List.getElem?_zipIdx, Option.map_map]
  exact congrArg (fun g => Option.map g d.outputs[k]?) (funext fun o => hf o _)

/-- A declaration has the name of its draft, and an output for each output of what it uses, referred
to by both names. -/
theorem DeclarationDraft.names_link {h : Hierarchy} {d : DeclarationDraft} {x : Specification}
    {location : Location} {decl : Declaration} (hok : d.link h x location = .ok decl) :
    decl.name = d.name ∧ decl.outputs.map (fun o => (o.name, o.referenceName)) =
      x.interface.outputs.map fun f => (f.name, referenceName d.name f.name) := by
  unfold link at hok
  obtain ⟨parameters, -, hok⟩ := bind_eq_ok.1 hok
  obtain rfl := pure_eq_ok.1 hok
  refine ⟨rfl, (Declaration.map_indexPipelines (fun _ _ => rfl) _).trans ?_⟩
  rw [List.map_map]
  rfl

theorem DeclarationDraft.qualified_link {h : Hierarchy} {d : DeclarationDraft} {x : Specification}
    {location : Location} {decl : Declaration} (hok : d.link h x location = .ok decl) :
    decl.Qualified := by
  obtain ⟨hname, houtputs⟩ := names_link hok
  intro o ho
  have hmem := List.mem_map_of_mem (f := fun o : Output => (o.name, o.referenceName)) ho
  rw [houtputs] at hmem
  obtain ⟨f, -, hf⟩ := List.mem_map.1 hmem
  obtain ⟨hfname, hreference⟩ := Prod.mk.inj hf
  rw [← hreference, hfname, hname]

/-- The outputs of a declaration differ by name if those of what it uses do. -/
theorem DeclarationDraft.nodup_link {h : Hierarchy} {d : DeclarationDraft} {x : Specification}
    {location : Location} {decl : Declaration}
    (hx : (x.interface.outputs.map FormalOutput.name).Nodup)
    (hok : d.link h x location = .ok decl) : (decl.outputs.map Output.name).Nodup := by
  have hnames := congrArg (List.map Prod.fst) (names_link hok).2
  simp only [List.map_map, Function.comp_def] at hnames
  exact hnames ▸ hx

namespace BlockDraft

variable {σ : Type} {good : σ → Prop} {c : Catalog} {r : Resolver σ} {b : BlockDraft}
  {a : Assembly} {s : σ} {n : Network}

theorem Distinct.named_linkParams (hb : b.Distinct) : ∀ p ∈ b.linkParams, p.Named := by
  intro p hp
  obtain ⟨q, hq, rfl⟩ := List.mem_map.1 hp
  refine ⟨fun i hi => ?_, ?_⟩
  · obtain ⟨attr, -, rfl⟩ := List.mem_map.1 hi
    simp only [dotted, String.append_assoc]
    rfl
  · rw [List.map_map]
    exact hb.attributes q hq

/-- Linking gives the declarations the names of the draft. -/
theorem ensures_qualified (r : Resolver σ) (b : BlockDraft) :
    Ensures (fun _ => True) (b.link r) fun n =>
      n.declarations.map Declaration.name = b.declarations.map DeclarationDraft.name ∧
        ∀ d ∈ n.declarations, d.Qualified := by
  refine (Ensures.forall₂ (R := fun d decl => decl.name = d.name ∧ decl.Qualified) (fun d => ?_)
    b.declarations).bind fun ds hds => .pure ⟨map_eq_of_forall₂ hds fun _ _ h => h.1, fun d hd => ?_⟩
  · exact Ensures.trivial.bind fun _ _ => .lift fun decl hdecl =>
      ⟨(DeclarationDraft.names_link hdecl).1, DeclarationDraft.qualified_link hdecl⟩
  · obtain ⟨i, hi⟩ := List.getElem?_of_mem hd
    obtain ⟨d', -, h⟩ := exists_getElem?_of_forall₂ hds.flip hi
    exact h.2

/-- Linking a draft in which all that has to differ does gives a network of named parts. -/
theorem ensures_named (hc : c.Registered) (hr : r.Within c good c.Assembled) (hb : b.Distinct) :
    Ensures good (b.link r) fun n => n.Named ∧
      n.declarations.map Declaration.name = b.declarations.map DeclarationDraft.name ∧
        n.params = b.linkParams := by
  have houtputs : Ensures good (b.link r) fun n => n.params = b.linkParams ∧
      ∀ d ∈ n.declarations, (d.outputs.map Output.name).Nodup := by
    refine (Ensures.mapM (fun d => ?_) b.declarations).bind fun ds hds => .pure ⟨rfl, hds⟩
    refine (d.ensures_serves (fun name x hx => .component (hr.component name x hx)) hr.block
      _).bind fun x hx => .lift fun decl hdecl => ?_
    exact DeclarationDraft.nodup_link (hx.nodup_outputs hc) hdecl
  refine (houtputs.and (b.ensures_qualified r)).mono
    fun n ⟨⟨hparams, hnodup⟩, hnames, hqualified⟩ => ⟨⟨?_, hqualified, hnodup, ?_, ?_⟩, hnames, hparams⟩
  · exact hnames ▸ hb.declarations
  · rw [hparams]
    unfold linkParams
    rw [List.map_map]
    exact hb.inputs
  · exact hparams ▸ hb.named_linkParams

/-- In a linked block, two outputs share their name just if one of them reaches into the declaration
of the other, and two attributes of inputs just if one of them reaches into the input of the other.
All that can be referred to is found by its name just if no two of a kind share it, as where no
declaration and no input has a dot in its name. -/
theorem names_shared_iff (hc : c.Registered) (hr : r.Within c good c.Assembled) (hs : good s)
    (ha : Assembly.ofDraft b = .ok a) (hlink : ((a.draft.link r).run.run s).1 = .ok n) :
    (∀ (id id' : OutputId) (d d' : Declaration) (o o' : Output), id ≠ id' →
      n.declaration? id.declaration = some d → d.outputs[id.output]? = some o →
      n.declaration? id'.declaration = some d' → d'.outputs[id'.output]? = some o' →
      (o.referenceName = o'.referenceName ↔
        OutputReaches d.name o.name d'.name o'.name ∨
          OutputReaches d'.name o'.name d.name o.name)) ∧
    (∀ (id id' : InputId) (p p' : BlockParameter) (i i' : BlockInput), id ≠ id' →
      n.params[id.param]? = some p → p.attributes[id.attr]? = some i →
      n.params[id'.param]? = some p' → p'.attributes[id'.attr]? = some i' →
      (i.referenceName = i'.referenceName ↔
        InputReaches p.name i.name p'.name i'.name ∨
          InputReaches p'.name i'.name p.name i.name)) ∧
    (n.InputsFound ↔ n.InputsApart) ∧
    (n.OutputsFound ↔ ∀ id id' o o', n.output? id = some o → n.output? id' = some o' →
      n.Unshadowed o.referenceName → o.referenceName = o'.referenceName → id = id') ∧
    ((∀ d ∈ b.declarations, '.' ∉ d.name.toList) → n.OutputsApart ∧ n.OutputsFound) ∧
    ((∀ p ∈ b.params, '.' ∉ p.name.toList) → n.InputsApart ∧ n.InputsFound) := by
  obtain ⟨rfl, hb⟩ := Assembly.ofDraft_eq_ok ha
  obtain ⟨hn, hdeclarations, hparams⟩ := (ensures_named hc hr hb s hs).2 n hlink
  refine ⟨fun _ _ _ _ _ _ hne hd ho hd' ho' => hn.output_name_eq_iff hne hd ho hd' ho',
    fun _ _ _ _ _ _ hne hp hi hp' hi' => hn.input_name_eq_iff hne hp hi hp' hi',
    Network.inputsFound_iff, Network.outputsFound_iff, fun hdots => ?_, fun hdots => ?_⟩
  · have hapart : n.OutputsApart := hn.outputsApart fun decl hdecl => by
      obtain ⟨d, hd, hname⟩ := List.mem_map.1 (hdeclarations ▸ List.mem_map_of_mem hdecl)
      exact hname ▸ hdots d hd
    exact ⟨hapart, Network.outputsFound_iff.2 fun id id' o o' ho ho' _ => hapart id id' o o' ho ho'⟩
  · have hapart : n.InputsApart := hn.inputsApart fun p hp => by
      obtain ⟨q, hq, rfl⟩ := List.mem_map.1 (hparams ▸ hp : p ∈ b.linkParams)
      exact hdots q hq
    exact ⟨hapart, Network.inputsFound_iff.2 hapart⟩

end BlockDraft

/-! ### Twins

Two uses of blocks whose outputs share a name. The output of the first begins with what the name of
the second is longer by. -/

/-- A block that hands on its input under a name with a dot, and one that does so under a name
without. -/
def twins : Bundle where
  types := []
  components := []
  blocks := [((BlockDraft.new "left").param "p" ["x"]).output "b.c" "@p.x",
    ((BlockDraft.new "right").param "p" ["x"]).output "c" "@p.x"]

/-- A block with a use of each. -/
def twinUses : BlockDraft :=
  ((BlockDraft.new "outer").addDeclaration
    ((DeclarationDraft.new "a" (.block "left")).param "p" [("x", "1")])).addDeclaration
      ((DeclarationDraft.new "a.b" (.block "right")).param "p" [("x", "2")])

/-- The block linked with a library. -/
def linkTwins (l : Library) : Except Fault Network :=
  ((twinUses.link l.resolver).run.run l).1

/-- The output of the declaration at a position, by both names. -/
def Network.firstOutput? (n : Network) (i : Nat) : Option (String × String) :=
  (n.declaration? i).bind fun d => d.outputs[0]?.map fun o => (d.name, o.name)

theorem Network.firstOutput?_eq_some {n : Network} {i : Nat} {name output : String}
    (h : n.firstOutput? i = some (name, output)) : ∃ d o, n.declaration? i = some d ∧
      d.outputs[0]? = some o ∧ d.name = name ∧ o.name = output := by
  obtain ⟨d, hd, h⟩ := Option.bind_eq_some_iff.1 h
  obtain ⟨o, ho, h⟩ := Option.map_eq_some_iff.1 h
  exact ⟨d, o, hd, ho, (Prod.mk.inj h).1, (Prod.mk.inj h).2⟩

/-- The library serves both blocks, and only one of the outputs is found by the name of both. -/
theorem BlockDraft.names_shared_iff_twins : ∃ l n o o', Library.ofBundle twins = .ok l ∧
    Assembly.ofDraft twinUses = .ok ⟨twinUses, .growing⟩ ∧
      ((twinUses.link l.resolver).run.run l).1 = .ok n ∧ n.output? ⟨0, 0⟩ = some o ∧
        n.output? ⟨1, 0⟩ = some o' ∧ o.referenceName = o'.referenceName ∧ ¬n.OutputsFound := by
  have hrun : (Library.ofBundle twins).toOption.any (fun l => (linkTwins l).toOption.any fun n =>
      n.firstOutput? 0 == some ("a", "b.c") && (n.firstOutput? 1 == some ("a.b", "c") &&
        n.params.isEmpty)) = true := by
    decide +kernel
  obtain ⟨l, hl, hrun⟩ := (Option.any_eq_true _ _).1 hrun
  obtain ⟨n, hn, hrun⟩ := (Option.any_eq_true _ _).1 hrun
  rw [Bool.and_eq_true, Bool.and_eq_true, beq_iff_eq, beq_iff_eq, List.isEmpty_iff] at hrun
  obtain ⟨hleft, hright, hparams⟩ := hrun
  obtain ⟨d, o, hd, ho, hdname, honame⟩ := Network.firstOutput?_eq_some hleft
  obtain ⟨d', o', hd', ho', hdname', honame'⟩ := Network.firstOutput?_eq_some hright
  have hok : Library.ofBundle twins = .ok l := toOption_eq_some.1 hl
  have haccepted : Assembly.ofDraft twinUses = .ok ⟨twinUses, .growing⟩ := rfl
  have hlink : ((twinUses.link l.resolver).run.run l).1 = .ok n := toOption_eq_some.1 hn
  obtain ⟨houtputs, -, -, hfound, -, -⟩ :=
    BlockDraft.names_shared_iff (Library.serving_ofBundle hok).1 (Library.resolver_assembled rfl)
      (Library.accepted_ofBundle hok) haccepted hlink
  have hreaches : OutputReaches d.name o.name d'.name o'.name := by
    rw [hdname, honame, hdname', honame']
    exact ⟨by decide, "b", rfl, rfl⟩
  have hshared : o.referenceName = o'.referenceName :=
    (houtputs ⟨0, 0⟩ ⟨1, 0⟩ d d' o o' (by decide) hd ho hd' ho').2 (.inl hreaches)
  have hout : n.output? ⟨0, 0⟩ = some o := Network.output?_eq_some.2 ⟨d, hd, ho⟩
  have hout' : n.output? ⟨1, 0⟩ = some o' := Network.output?_eq_some.2 ⟨d', hd', ho'⟩
  refine ⟨l, n, o, o', hok, haccepted, hlink, hout, hout', hshared, fun h => ?_⟩
  have hnone : n.Unshadowed o.referenceName := fun id i hi => by
    simp [Network.input?, hparams] at hi
  have heq := hfound.1 h ⟨0, 0⟩ ⟨1, 0⟩ o o' hout hout' hnone hshared
  cases heq

/-- A block with two attributes of inputs that share a name, which an output is wired to. -/
def sharedInputs : BlockDraft :=
  (((BlockDraft.new "b").param "a.b" ["c"]).param "a" ["b.c"]).output "o" "@a.b.c"

/-- The block linked to nothing. -/
def linkSharedInputs : Except Fault Network :=
  ((sharedInputs.link Catalog.standard.resolver).run.run ()).1

/-- The block is accepted and completed. The output is wired to the second of two inputs that share
a name, and the first cannot be referred to. -/
theorem BlockDraft.names_shared_inputs : ∃ n m i i',
    Assembly.ofDraft sharedInputs = .ok ⟨sharedInputs, .growing⟩ ∧
      ((sharedInputs.link Catalog.standard.resolver).run.run ()).1 = .ok n ∧
        n.input? ⟨0, 0⟩ = some i ∧ n.input? ⟨1, 0⟩ = some i' ∧
          i.referenceName = i'.referenceName ∧
            n.resolve? i.referenceName = some (.input ⟨1, 0⟩) ∧ n.complete = .ok m ∧
              m.outputs.map BlockOutput.target = [some (.input ⟨1, 0⟩)] := by
  have hrun : linkSharedInputs.toOption.any (fun n => (n.input? ⟨0, 0⟩).any fun i =>
      (n.input? ⟨1, 0⟩).any fun i' => n.complete.toOption.any fun m =>
        i.referenceName == i'.referenceName &&
          (n.resolve? i.referenceName == some (.input ⟨1, 0⟩) &&
            m.outputs.map BlockOutput.target == [some (.input ⟨1, 0⟩)])) = true := by
    decide +kernel
  obtain ⟨n, hn, hrun⟩ := (Option.any_eq_true _ _).1 hrun
  obtain ⟨i, hi, hrun⟩ := (Option.any_eq_true _ _).1 hrun
  obtain ⟨i', hi', hrun⟩ := (Option.any_eq_true _ _).1 hrun
  obtain ⟨m, hm, hrun⟩ := (Option.any_eq_true _ _).1 hrun
  rw [Bool.and_eq_true, Bool.and_eq_true, beq_iff_eq, beq_iff_eq, beq_iff_eq] at hrun
  exact ⟨n, m, i, i', rfl, toOption_eq_some.1 hn, hi, hi', hrun.1, hrun.2.1,
    toOption_eq_some.1 hm, hrun.2.2⟩

end Blockwork
