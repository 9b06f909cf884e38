import Blockwork.Proofs.Fresh
import Blockwork.Proofs.StarBindings

/-!
# Expanding star references

Expanding star references is a substitution: each parameter is replaced by copies, one for each
output that its star reference matches, and nothing else changes but the links of outputs to the
attributes that feed them (`Network.ExpandsTo`). It fails just if a parameter has star references
that cannot be expanded (`Network.Unexpandable`).

What a star reference reads of a declaration are its name and those of its outputs, which expanding
keeps. So declarations may be expanded one after the other, each in the network that the ones before
it leave behind, and two such steps may be swapped (`Network.expandAt_comm`): the order of the
declarations does not matter. All this is `BlockDraft.expandStars_exact`.
-/

namespace Blockwork

/-! ## What is substituted -/

/-- The text is the star reference to the outputs of a declaration whose names start in a certain
way, neither of which has a dot in it. -/
structure StarTo (star name start : String) : Prop where
  text : star = "@" ++ dotted name start ++ "*"
  name : '.' ∉ name.toList
  start : '.' ∉ start.toList

theorem StarTo.starParts? {star name start : String} (h : StarTo star name start) :
    starParts? star = some (name, start.toList) := by
  have hbody : (star.toList.drop 1).dropLast = name.toList ++ '.' :: start.toList := by
    have htoList : star.toList = '@' :: (name.toList ++ '.' :: start.toList ++ ['*']) := by
      rw [h.text]
      simp [toList_dotted]
    rw [htoList, List.drop_one, List.tail_cons, List.dropLast_concat]
  unfold Blockwork.starParts?
  rw [hbody, splitAt_append h.name, splitAt_of_not_mem h.start]
  simp

theorem not_starTo {star : String} (h : starParts? star = none) (name start : String) :
    ¬StarTo star name start := by
  intro hto
  rw [hto.starParts?] at h
  cases h

theorem starTo_of_starParts? {star name : String} {start : List Char}
    (hstar : isStarText star = true) (h : starParts? star = some (name, start)) :
    StarTo star name (String.ofList start) := by
  obtain ⟨htext, hname, hstart⟩ := starParts?_eq_some hstar h
  exact ⟨htext, hname, by rwa [String.toList_ofList]⟩

/-- The copy is the parameter in which the attributes with one text have another, and all that is
left is the same. -/
structure Parameter.FilledWith (q : Parameter) (star reference : String) (copy : Parameter) :
    Prop where
  name : copy.name = q.name
  formal : copy.formal = q.formal
  slots : List.Forall₂ (fun s s' : Slot =>
    (s.raw = some star → s' = { s with raw := some reference }) ∧ (s.raw ≠ some star → s' = s))
    q.slots copy.slots

theorem Parameter.filledWith_substitute (q : Parameter) (star reference : String) :
    q.FilledWith star reference (q.substitute star reference) where
  name := rfl
  formal := rfl
  slots := by
    refine List.forall₂_map_right_iff.2 (List.forall₂_same.2 fun s _ => ?_)
    unfold Slot.substitute
    exact ⟨fun h => if_pos h, fun h => if_neg h⟩

namespace Network

/-- What takes the place of a parameter: the parameter if it has no star reference, and otherwise a
copy for each output of the declaration of the name whose own name starts as the star reference
says, in order, with a reference to the output in place of the star reference. -/
inductive Replaces (n : Network) (q : Parameter) : List Parameter → Prop
  | kept (hfree : ∀ s ∈ q.slots, s.isStar = false) : Replaces n q [q]
  | copied {star name start : String} {t : Declaration} {copies : List Parameter}
    (hstar : ∃ s ∈ q.slots, s.raw = some star)
    (honly : ∀ s ∈ q.slots, s.isStar = true → s.raw = some star)
    (hto : StarTo star name start) (ht : t ∈ n.declarations) (hname : t.name = name)
    (hone : ∀ t' ∈ n.declarations, t'.name = name → t' = t)
    (hcopies : List.Forall₂ (fun x copy => q.FilledWith star x.1.referenceName copy)
      (t.startingWith start) copies) : Replaces n q copies

/-- The star references of a parameter cannot be expanded: there are different ones, one is not two
names with a dot between, or it names no declaration. -/
inductive Unexpandable (n : Network) (q : Parameter) : Prop
  | several {star star' : String} (hstar : star ∈ q.stars) (hstar' : star' ∈ q.stars)
    (hne : star ≠ star')
  | illegal {star : String} (hstar : star ∈ q.stars)
    (hnot : ∀ name start, ¬StarTo star name start)
  | unknown {star name start : String} (hstar : star ∈ q.stars) (hto : StarTo star name start)
    (hnone : ∀ t ∈ n.declarations, t.name ≠ name)

end Network

/-- An output lists the attributes that feed it, each as often as the attribute says so. -/
def Declaration.Inverse (d : Declaration) : Prop :=
  ∀ (k : Nat) (o : Output), d.outputs[k]? = some o → ∀ p a,
    o.fedBy.count (p, a) = ((d.slot? p a).map fun s => s.feeds.count k).getD 0

/-- The declaration with all its parameters replaced, and with the outputs linked to the attributes
that feed them now. -/
structure Network.DeclarationExpandsTo (n : Network) (d d' : Declaration) : Prop where
  kept : d' = { d with parameters := d'.parameters, outputs := d'.outputs }
  parameters : ∃ groups, d'.parameters = groups.flatten ∧
    List.Forall₂ n.Replaces d.parameters groups
  outputs : List.Forall₂ (fun o o' : Output => o' = { o with fedBy := o'.fedBy })
    d.outputs d'.outputs
  inverse : d'.Inverse

/-- The network with all its declarations expanded, and nothing else changed. -/
structure Network.ExpandsTo (n e : Network) : Prop where
  kept : e = { n with declarations := e.declarations }
  declarations : List.Forall₂ n.DeclarationExpandsTo n.declarations e.declarations

/-! ## Links of outputs -/

namespace Declaration

variable {d d' : Declaration}

/-- The links that one attribute gives an output. -/
theorem count_links (position position' : Nat × Nat) (feeds : List Nat) (k : Nat) :
    ((feeds.filter (· == k)).map fun _ => position').count position =
      if position' = position then feeds.count k else 0 := by
  rw [List.map_const', List.count_replicate, ← List.countP_eq_length_filter]
  by_cases h : position' = position
  · rw [if_pos h, if_pos (beq_iff_eq.2 h)]
    rfl
  · rw [if_neg h, if_neg (fun h' => h (beq_iff_eq.1 h'))]

theorem count_flatMap_links (k : Nat) {position : Nat × Nat} {s : Slot} :
    ∀ {l : List ((Nat × Nat) × Slot)}, (l.map Prod.fst).Nodup → (position, s) ∈ l →
      (l.flatMap fun (position, s) => (s.feeds.filter (· == k)).map fun _ => position).count
        position = s.feeds.count k
  | [], _, h => nomatch h
  | x :: l, hnodup, h => by
    rw [List.map_cons, List.nodup_cons] at hnodup
    rw [List.flatMap_cons, List.count_append, count_links]
    rcases List.mem_cons.1 h with rfl | h
    · have hrest : position ∉ l.flatMap fun (position, s) =>
          (s.feeds.filter (· == k)).map fun _ => position := fun hmem => by
        obtain ⟨y, hy, hmem⟩ := List.mem_flatMap.1 hmem
        obtain ⟨_, -, rfl⟩ := List.mem_map.1 hmem
        exact hnodup.1 (List.mem_map.2 ⟨y, hy, rfl⟩)
      rw [if_pos rfl, List.count_eq_zero.2 hrest, Nat.add_zero]
    · have hne : x.1 ≠ position := fun heq => hnodup.1 (heq ▸ List.mem_map_of_mem h)
      rw [if_neg hne, count_flatMap_links k hnodup.2 h, Nat.zero_add]

/-- An attribute feeds an output as often as it names it. -/
theorem count_feeders (d : Declaration) (k p a : Nat) :
    (d.feeders k).count (p, a) = ((d.slot? p a).map fun s => s.feeds.count k).getD 0 := by
  cases hslot : d.slot? p a with
  | none =>
    refine List.count_eq_zero.2 fun hmem => ?_
    obtain ⟨s, hs, -⟩ := mem_feeders.1 hmem
    rw [hslot] at hs
    cases hs
  | some s => exact count_flatMap_links k d.nodup_positions (mem_slots.2 hslot)

theorem inverse_indexPipelines (d : Declaration) : d.indexPipelines.Inverse := by
  intro k o ho p a
  unfold indexPipelines at ho
  rw [List.getElem?_map, List.getElem?_zipIdx, Option.map_map] at ho
  obtain ⟨o, -, rfl⟩ := Option.map_eq_some_iff.1 ho
  rw [Nat.zero_add]
  exact count_feeders d k p a

theorem outputs_indexPipelines (d : Declaration) :
    List.Forall₂ (fun o o' : Output => o' = { o with fedBy := o'.fedBy }) d.outputs
      d.indexPipelines.outputs := by
  conv_lhs => rw [← List.zipIdx_map_fst 0 d.outputs]
  exact List.forall₂_map_left_iff.2 (List.forall₂_map_right_iff.2
    (List.forall₂_same.2 fun _ _ => rfl))

/-- Links that are taken from the attributes once more stay the same. -/
theorem indexPipelines_idem (d : Declaration) :
    d.indexPipelines.indexPipelines = d.indexPipelines := by
  have houtputs : d.indexPipelines.indexPipelines.outputs = d.indexPipelines.outputs := by
    refine List.ext_getElem? fun k => ?_
    simp only [indexPipelines, List.getElem?_map, List.getElem?_zipIdx, Option.map_map]
    exact congrArg (fun g => Option.map g d.outputs[k]?) rfl
  exact congrArg (fun outputs => { d with outputs }) houtputs

end Declaration

/-! ## Replacing parameters -/

theorem Parameter.stars_eq_nil {q : Parameter} :
    q.stars = [] ↔ ∀ s ∈ q.slots, s.isStar = false := by
  rw [List.eq_nil_iff_forall_not_mem]
  constructor
  · intro hnone s hs
    refine eq_false_of_ne_true fun hstar => ?_
    obtain ⟨star, hraw, htext⟩ := s.exists_of_isStar hstar
    exact hnone star (mem_stars.2 ⟨s, hs, hraw, htext⟩)
  · intro hfree star hstar
    obtain ⟨s, hs, hraw, htext⟩ := mem_stars.1 hstar
    have hnot := hfree s hs
    rw [Slot.isStar, hraw, Option.any_some, htext] at hnot
    cases hnot

/-- A step that cannot fail adds no failure. -/
theorem exists_error_bind_pure {α β ε : Type} {x : Except ε α} {f : α → β} :
    (∃ e, (x >>= fun a => pure (f a)) = .error e) ↔ ∃ e, x = .error e := by
  refine exists_congr fun e => ⟨fun h => ?_, fun h => bind_eq_error.2 (.inl h)⟩
  obtain h | ⟨_, -, h⟩ := bind_eq_error.1 h
  · exact h
  · cases h

/-- A run over a list fails just if it does at one of the elements. -/
theorem exists_error_mapM_iff {α β ε : Type} {f : α → Except ε β} {l : List α} :
    (∃ x, l.mapM f = .error x) ↔ ∃ a ∈ l, ∃ x, f a = .error x := by
  constructor
  · rintro ⟨x, h⟩
    obtain ⟨a, ha, h⟩ := exists_error_of_mapM h
    exact ⟨a, ha, x, h⟩
  · rintro ⟨a, ha, x, h⟩
    cases hrun : l.mapM f with
    | error x => exact ⟨x, rfl⟩
    | ok bs =>
      obtain ⟨b, -, hb⟩ := exists_mem_of_mapM_eq_ok hrun ha
      rw [h] at hb
      cases hb

namespace Network

variable {n c c' e : Network} {d d' : Declaration} {q : Parameter} {qs : List Parameter}

theorem expandParameter_replaces (hnames : (n.declarations.map Declaration.name).Nodup)
    (h : n.expandParameter d q = .ok qs) : n.Replaces q qs := by
  cases hstars : q.stars with
  | nil =>
    rw [expandParameter_of_nil hstars] at h
    obtain rfl := Except.ok.inj h
    exact .kept (Parameter.stars_eq_nil.1 hstars)
  | cons star' stars =>
    obtain ⟨s, hs, hraw', htext'⟩ := Parameter.mem_stars.1 (hstars ▸ List.mem_cons_self)
    rcases expandParameter_eq_ok h with ⟨hnil, -⟩ |
      ⟨star, name, start, t, hraw, htext, hparts, ht, rfl⟩
    · rw [hstars] at hnil
      cases hnil
    · have hstar : s.raw = some star := hraw s hs (by simp [Slot.isStar, hraw', htext'])
      obtain ⟨hmem, hname⟩ := declarationNamed?_eq_some ht
      have hone : ∀ t' ∈ n.declarations, t'.name = name → t' = t := fun t' ht' hname' =>
        List.inj_on_of_nodup_map hnames ht' hmem (hname'.trans hname.symm)
      have hreferences := t.referencesTo_eq (String.ofList start)
      rw [String.toList_ofList] at hreferences
      refine .copied ⟨s, hs, hstar⟩ hraw (starTo_of_starParts? htext hparts) hmem hname hone ?_
      rw [hreferences, List.map_map]
      exact List.forall₂_map_right_iff.2 (List.forall₂_same.2 fun x _ =>
        q.filledWith_substitute star x.1.referenceName)

theorem declarationNamed?_eq_none {name : String} :
    n.declarationNamed? name = none ↔ ∀ t ∈ n.declarations, t.name ≠ name := by
  unfold declarationNamed?
  simp

/-- What can be replaced is not unexpandable. -/
theorem not_unexpandable (h : n.expandParameter d q = .ok qs) : ¬n.Unexpandable q := by
  rcases expandParameter_eq_ok h with ⟨hnil, -⟩ | ⟨star, name, start, t, hraw, htext, hparts, ht, -⟩
  · rintro (⟨hstar, -, -⟩ | ⟨hstar, -⟩ | ⟨hstar, -, -⟩) <;> rw [hnil] at hstar <;> cases hstar
  · have honly : ∀ star' ∈ q.stars, star' = star := fun star' hstar' => by
      obtain ⟨s, hs, hraw', htext'⟩ := Parameter.mem_stars.1 hstar'
      have hstar := hraw s hs (by simp [Slot.isStar, hraw', htext'])
      exact Option.some.inj (hraw'.symm.trans hstar)
    rintro (⟨hstar, hstar', hne⟩ | ⟨hstar, hnot⟩ | ⟨hstar, hto, hnone⟩)
    · exact hne ((honly _ hstar).trans (honly _ hstar').symm)
    · exact hnot _ _ (honly _ hstar ▸ starTo_of_starParts? htext hparts)
    · have hname := hto.starParts?
      rw [honly _ hstar, hparts] at hname
      obtain ⟨hmem, ht⟩ := declarationNamed?_eq_some ht
      exact hnone t hmem (ht.trans (Prod.mk.inj (Option.some.inj hname)).1)

/-- What cannot be replaced is unexpandable. -/
theorem unexpandable_of_error {x : Fault} (h : n.expandParameter d q = .error x) :
    n.Unexpandable q := by
  unfold expandParameter at h
  split at h
  · cases h
  · rename_i star stars hstars
    have hstar : star ∈ q.stars := hstars ▸ List.mem_cons_self
    split at h
    · obtain h | ⟨references, -, h⟩ := bind_eq_error.1 h
      · obtain ⟨s, -, -, htext⟩ := Parameter.mem_stars.1 hstar
        unfold starReferences at h
        split at h
        · rename_i hparts
          exact .illegal hstar (not_starTo hparts)
        · rename_i name start hparts
          split at h
          · rename_i hnone
            exact .unknown hstar (starTo_of_starParts? htext hparts)
              (declarationNamed?_eq_none.1 hnone)
          · cases h
      · cases h
    · rename_i hall
      rw [Bool.not_eq_true, List.all_eq_false] at hall
      obtain ⟨star', hmem, hne⟩ := hall
      exact .several (hstars ▸ List.mem_cons_of_mem _ hmem) hstar (by simpa using hne)

theorem exists_error_expandParameter :
    (∃ x, n.expandParameter d q = .error x) ↔ n.Unexpandable q := by
  refine ⟨fun ⟨_, h⟩ => unexpandable_of_error h, fun hun => ?_⟩
  cases h : n.expandParameter d q with
  | error x => exact ⟨x, rfl⟩
  | ok qs => exact absurd hun (not_unexpandable h)

/-! ## Expanding declarations -/

/-- A declaration without star references is no exception: its parameters are kept one by one, and
its outputs are linked already. -/
theorem expandDeclaration_eq (hd : d.indexPipelines = d) : n.expandDeclaration d = (do
    let groups ← d.parameters.mapM (n.expandParameter d)
    return { d with parameters := groups.flatten }.indexPipelines) := by
  unfold expandDeclaration
  split
  · rename_i hall
    have hkept : d.parameters.mapM (n.expandParameter d) = .ok (d.parameters.map fun q => [q]) :=
      mapM_eq_ok_of_forall₂ (List.forall₂_map_right_iff.2 (List.forall₂_same.2 fun q hq =>
        expandParameter_of_nil (List.isEmpty_iff.1 (List.all_eq_true.1 hall q hq))))
    rw [hkept]
    refine (congrArg Except.ok ?_).symm
    rw [← List.flatMap_def, List.flatMap_singleton', hd]
  · rfl

theorem expandDeclaration_expandsTo (hnames : (n.declarations.map Declaration.name).Nodup)
    (hd : d.indexPipelines = d) (h : n.expandDeclaration d = .ok d') :
    n.DeclarationExpandsTo d d' := by
  rw [expandDeclaration_eq hd] at h
  obtain ⟨groups, hgroups, h⟩ := bind_eq_ok.1 h
  obtain rfl := pure_eq_ok.1 h
  exact
    { kept := rfl
      parameters := ⟨groups, rfl, (forall₂_of_mapM_eq_ok hgroups).imp fun _ _ hqs =>
        expandParameter_replaces hnames hqs⟩
      outputs := Declaration.outputs_indexPipelines { d with parameters := groups.flatten }
      inverse := Declaration.inverse_indexPipelines _ }

theorem exists_error_expandDeclaration (hd : d.indexPipelines = d) :
    (∃ x, n.expandDeclaration d = .error x) ↔ ∃ q ∈ d.parameters, n.Unexpandable q := by
  rw [expandDeclaration_eq hd, exists_error_bind_pure, exists_error_mapM_iff]
  exact exists_congr fun q => and_congr_right fun _ => exists_error_expandParameter

theorem expandStars_expandsTo (hnames : (n.declarations.map Declaration.name).Nodup)
    (hindexed : ∀ d ∈ n.declarations, d.indexPipelines = d) (h : n.expandStars = .ok e) :
    n.ExpandsTo e := by
  obtain ⟨declarations, hds, h⟩ := bind_eq_ok.1 h
  obtain rfl := pure_eq_ok.1 h
  refine ⟨rfl, ?_⟩
  refine ((List.forall₂_and_left ..).2 ⟨hindexed, forall₂_of_mapM_eq_ok hds⟩).imp ?_
  exact fun _ _ ⟨hd, hexpand⟩ => expandDeclaration_expandsTo hnames hd hexpand

theorem exists_error_expandStars (hindexed : ∀ d ∈ n.declarations, d.indexPipelines = d) :
    (∃ x, n.expandStars = .error x) ↔
      ∃ d ∈ n.declarations, ∃ q ∈ d.parameters, n.Unexpandable q := by
  unfold expandStars
  rw [exists_error_bind_pure, exists_error_mapM_iff]
  exact exists_congr fun d => and_congr_right fun hd =>
    exists_error_expandDeclaration (hindexed d hd)

end Network

/-! ## One after the other -/

/-- What star references read of a declaration: its name, and the names of its outputs. -/
def Declaration.label (d : Declaration) : String × List (String × String) :=
  (d.name, d.outputs.map fun o => (o.name, o.referenceName))

theorem Declaration.referencesTo_congr {d d' : Declaration} (h : d'.label = d.label)
    (start : List Char) : d'.referencesTo start = d.referencesTo start := by
  have hlabel : ∀ d : Declaration, d.referencesTo start =
      (d.label.2.filter fun x => start.isPrefixOf x.1.toList).map Prod.snd := fun d => by
    unfold referencesTo label
    rw [List.filter_map, List.map_map]
    rfl
  rw [hlabel, hlabel, h]

namespace Network

variable {n c c' e : Network} {d d' : Declaration} {q : Parameter} {qs : List Parameter}

/-- What star references read of the declarations. -/
def labels (n : Network) : List (String × List (String × String)) :=
  n.declarations.map Declaration.label

/-- The network with the declaration at a position expanded in it. -/
def expandAt (c : Network) (i : Nat) : Except Fault Network := do
  let d ← require .outOfRange (c.declaration? i)
  let d' ← c.expandDeclaration d
  return c.modifyDeclaration i fun _ => d'

theorem map_label_declarationNamed? (n : Network) (name : String) :
    (n.declarationNamed? name).map Declaration.label =
      n.labels.reverse.find? fun x => x.1 == name := by
  unfold declarationNamed? labels
  rw [← List.map_reverse, List.find?_map]
  rfl

theorem starReferences_congr (h : c.labels = n.labels) (d : Declaration) (star : String) :
    c.starReferences d star = n.starReferences d star := by
  have hnamed : ∀ name, (c.declarationNamed? name).map Declaration.label =
      (n.declarationNamed? name).map Declaration.label := fun name => by
    rw [map_label_declarationNamed?, map_label_declarationNamed?, h]
  unfold starReferences
  cases starParts? star with
  | none => rfl
  | some parts =>
    obtain ⟨name, start⟩ := parts
    have hname := hnamed name
    cases hc : c.declarationNamed? name <;> cases hn : n.declarationNamed? name <;>
      rw [hc, hn] at hname <;> simp only [hc, hn]
    · cases hname
    · cases hname
    · rw [Declaration.referencesTo_congr (Option.some.inj hname)]

/-- Expanding a declaration reads nothing else of the network. -/
theorem expandDeclaration_congr (h : c.labels = n.labels) (d : Declaration) :
    c.expandDeclaration d = n.expandDeclaration d := by
  have hparameter : c.expandParameter d = n.expandParameter d := funext fun q => by
    unfold expandParameter
    simp only [starReferences_congr h]
  unfold expandDeclaration
  rw [hparameter]

/-- Expanding keeps what is read of a declaration. -/
theorem label_expandDeclaration (h : n.expandDeclaration d = .ok d') : d'.label = d.label := by
  unfold expandDeclaration at h
  split at h
  · rw [Except.ok.inj h]
  · obtain ⟨groups, -, h⟩ := bind_eq_ok.1 h
    obtain rfl := pure_eq_ok.1 h
    exact congrArg (Prod.mk d.name) (Declaration.map_indexPipelines (fun _ _ => rfl) _)

theorem modifyDeclaration_comm {i j : Nat} (hij : i ≠ j) (f g : Declaration → Declaration) :
    (c.modifyDeclaration i f).modifyDeclaration j g =
      (c.modifyDeclaration j g).modifyDeclaration i f := by
  refine congrArg (fun declarations => { c with declarations }) (List.ext_getElem? fun k => ?_)
  change ((c.modifyDeclaration i f).modifyDeclaration j g).declaration? k =
    ((c.modifyDeclaration j g).modifyDeclaration i f).declaration? k
  simp only [declaration?_modifyDeclaration]
  by_cases hi : i = k
  · have hj : j ≠ k := fun hj => hij (hi.trans hj.symm)
    rw [if_neg hj, if_neg hj]
  · rw [if_neg hi, if_neg hi]

theorem expandAt_eq_ok {i : Nat} : c.expandAt i = .ok c' ↔ ∃ d d', c.declaration? i = some d ∧
    c.expandDeclaration d = .ok d' ∧ (c' = c.modifyDeclaration i fun _ => d') := by
  unfold expandAt
  simp only [bind_eq_ok, require_eq_ok, pure_eq_ok, eq_comm (b := c')]
  constructor
  · rintro ⟨d, hd, d', hd', h⟩
    exact ⟨d, d', hd, hd', h⟩
  · rintro ⟨d, d', hd, hd', h⟩
    exact ⟨d, hd, d', hd', h⟩

theorem labels_expandAt {i : Nat} (h : c.expandAt i = .ok c') : c'.labels = c.labels := by
  obtain ⟨d, d', hd, hd', rfl⟩ := expandAt_eq_ok.1 h
  refine List.ext_getElem? fun j => ?_
  unfold labels
  rw [List.getElem?_map, List.getElem?_map]
  change Option.map _ ((c.modifyDeclaration i fun _ => d').declaration? j) =
    Option.map _ (c.declaration? j)
  rw [declaration?_modifyDeclaration]
  split
  · rename_i hij
    rw [← hij, hd]
    exact congrArg some (label_expandDeclaration hd')
  · rfl

/-- Two declarations may be expanded in either order: the second to be expanded is what it was,
and reads of the other what it read before. -/
theorem expandAt_comm {i j : Nat} (h : (c.expandAt i >>= (expandAt · j)) = .ok e) :
    (c.expandAt j >>= (expandAt · i)) = .ok e := by
  obtain ⟨c', hi, hj⟩ := bind_eq_ok.1 h
  have hlabels := labels_expandAt hi
  obtain ⟨d, d', hd, hd', rfl⟩ := expandAt_eq_ok.1 hi
  obtain ⟨f, f', hf, hf', rfl⟩ := expandAt_eq_ok.1 hj
  rw [expandDeclaration_congr hlabels] at hf'
  by_cases hij : i = j
  · rw [← hij]
    exact hij ▸ h
  · rw [declaration?_modifyDeclaration_of_ne _ hij] at hf
    have hfirst : c.expandAt j = .ok (c.modifyDeclaration j fun _ => f') :=
      expandAt_eq_ok.2 ⟨f, f', hf, hf', rfl⟩
    refine bind_eq_ok.2 ⟨_, hfirst, expandAt_eq_ok.2 ⟨d, d', ?_, ?_, ?_⟩⟩
    · rw [declaration?_modifyDeclaration_of_ne _ (Ne.symm hij), hd]
    · rw [expandDeclaration_congr (labels_expandAt hfirst), hd']
    · exact modifyDeclaration_comm hij _ _

/-- Declarations may be expanded in any order. -/
theorem foldlM_expandAt_perm {l l' : List Nat} (hperm : l.Perm l') (c : Network) :
    l.foldlM expandAt c = .ok e ↔ l'.foldlM expandAt c = .ok e := by
  induction hperm generalizing c with
  | nil => exact Iff.rfl
  | cons i _ ih =>
    rw [List.foldlM_cons, List.foldlM_cons, bind_eq_ok, bind_eq_ok]
    exact exists_congr fun c' => and_congr_right fun _ => ih c'
  | swap i j l =>
    -- The two steps come first in both runs, so they are split off before they are swapped.
    have hassoc : ∀ i j, (i :: j :: l).foldlM expandAt c =
        (c.expandAt i >>= (expandAt · j)) >>= l.foldlM expandAt := fun i j => by
      simp only [List.foldlM_cons, bind_assoc]
    rw [hassoc, hassoc, bind_eq_ok, bind_eq_ok]
    exact exists_congr fun c' => and_congr_left fun _ => ⟨expandAt_comm, expandAt_comm⟩
  | trans _ _ ih ih' => exact (ih c).trans (ih' c)

theorem modify_append_cons {α : Type} (a b : α) (r : List α) :
    ∀ l : List α, (l ++ a :: r).modify l.length (fun _ => b) = l ++ b :: r
  | [] => rfl
  | x :: l => congrArg (x :: ·) (modify_append_cons a b r l)

/-- Expanding the declarations that are left, one after the other, expands all of them as they
stand in the network at first. -/
theorem foldlM_expandAt_range' : ∀ (rest done : List Declaration),
    ({ n with declarations := done ++ rest } : Network).labels = n.labels →
      (List.range' done.length rest.length).foldlM expandAt
        { n with declarations := done ++ rest } = (do
          let rest' ← rest.mapM n.expandDeclaration
          return { n with declarations := done ++ rest' })
  | [], done, _ => rfl
  | d :: rest, done, hlabels => by
    have hd : ({ n with declarations := done ++ d :: rest } : Network).declaration? done.length =
        some d := by
      simp [declaration?]
    have hstep : ({ n with declarations := done ++ d :: rest } : Network).expandAt done.length =
        (n.expandDeclaration d).map fun d' =>
          { n with declarations := (done ++ [d']) ++ rest } := by
      have hread : ({ n with declarations := done ++ d :: rest } : Network).expandAt done.length =
          (do
            let d' ← n.expandDeclaration d
            return ({ n with declarations := done ++ d :: rest } : Network).modifyDeclaration
              done.length fun _ => d') := by
        unfold expandAt
        rw [hd, ← expandDeclaration_congr hlabels]
        rfl
      rw [hread]
      cases n.expandDeclaration d with
      | error x => rfl
      | ok d' =>
        refine congrArg (fun ds => Except.ok { n with declarations := ds }) ?_
        rw [← List.append_cons]
        exact modify_append_cons d d' rest done
    rw [List.length_cons, List.range'_succ, List.foldlM_cons, List.mapM_cons, hstep]
    cases hexpand : n.expandDeclaration d with
    | error x => rfl
    | ok d' =>
      -- The expanded declaration is done, and the rest reads of it what it read before.
      have hlabels' : ({ n with declarations := (done ++ [d']) ++ rest } : Network).labels =
          n.labels := by
        rw [hexpand] at hstep
        exact (labels_expandAt hstep).trans hlabels
      have hrest := foldlM_expandAt_range' rest (done ++ [d']) hlabels'
      rw [List.length_append, List.length_singleton] at hrest
      refine hrest.trans ?_
      cases rest.mapM n.expandDeclaration with
      | error x => rfl
      | ok rest' =>
        exact congrArg (fun ds => Except.ok { n with declarations := ds })
          (List.append_cons ..).symm

theorem foldlM_expandAt_positions (n : Network) :
    n.positions.foldlM expandAt n = n.expandStars := by
  unfold positions
  rw [List.range_eq_range']
  exact foldlM_expandAt_range' n.declarations [] rfl

end Network

/-! ## Linked blocks -/

theorem DeclarationDraft.indexed_link {h : Hierarchy} {d : DeclarationDraft} {x : Specification}
    {location : Location} {decl : Declaration} (hok : d.link h x location = .ok decl) :
    decl.indexPipelines = decl := by
  obtain ⟨parameters, -, hok⟩ := bind_eq_ok.1 hok
  obtain rfl := pure_eq_ok.1 hok
  exact Declaration.indexPipelines_idem _

namespace BlockDraft

variable {σ : Type} {r : Resolver σ} {b : BlockDraft} {s : σ} {n : Network}

/-- Linking leaves outputs linked to the attributes that feed them. -/
theorem ensures_indexed (r : Resolver σ) (b : BlockDraft) :
    Ensures (fun _ => True) (b.link r) fun n => ∀ d ∈ n.declarations, d.indexPipelines = d := by
  refine (Ensures.mapM (fun d => ?_) b.declarations).bind fun ds hds => .pure hds
  exact Ensures.trivial.bind fun _ _ => .lift fun _ hok => DeclarationDraft.indexed_link hok

/-- Expanding the star references of a linked block whose declarations have different names puts
copies in the place of parameters, changes nothing else and leaves all outputs linked to the
attributes that feed them. It fails just if a parameter has star references that cannot be expanded.
Declarations that are expanded in place, in the order of the draft, come out no different, and if
they are expanded in another order this succeeds for the same blocks, with the same result. -/
theorem expandStars_exact (hlink : ((b.link r).run.run s).1 = .ok n)
    (hnames : (n.declarations.map Declaration.name).Nodup) :
    (∀ e, n.expandStars = .ok e → n.ExpandsTo e) ∧
      ((∃ x, n.expandStars = .error x) ↔
        ∃ d ∈ n.declarations, ∃ q ∈ d.parameters, n.Unexpandable q) ∧
        n.positions.foldlM Network.expandAt n = n.expandStars ∧
          ∀ order : List Nat, order.Perm n.positions → ∀ e,
            order.foldlM Network.expandAt n = .ok e ↔ n.expandStars = .ok e := by
  have hindexed := (b.ensures_indexed r s trivial).2 n hlink
  have hpositions := n.foldlM_expandAt_positions
  refine ⟨fun e => Network.expandStars_expandsTo hnames hindexed,
    Network.exists_error_expandStars hindexed, hpositions, fun order hperm e => ?_⟩
  rw [← hpositions]
  exact Network.foldlM_expandAt_perm hperm n

/-- A block with one more sink, which takes outputs that there are none of before it takes all
outputs of the source. -/
def vanishingUse : BlockDraft :=
  starUse.addDeclaration (((DeclarationDraft.new "e" (.component "Sink")).param "in"
    [("value", "@d.x*")]).param "in" [("value", "@d.o*")])

/-- The second sink is left with its condition and one parameter, also if the declarations are
expanded from the last one to the first. -/
theorem expandStars_exact_use : ∃ n e d,
    ((vanishingUse.link starCatalog.resolver).run.run ()).1 = .ok n ∧
      (n.declarations.map Declaration.name).Nodup ∧ n.expandStars = .ok e ∧ n.ExpandsTo e ∧
        n.positions.reverse.foldlM Network.expandAt n = .ok e ∧ e.declaration? 2 = some d ∧
          d.parameters.map (fun q => q.slots.map Slot.raw) =
            [[some "true", none], [some "@d.out"]] := by
  have hrun : (linkStar vanishingUse).toOption.any (fun n =>
      decide (n.declarations.map Declaration.name).Nodup &&
        n.expandStars.toOption.any fun e => (e.declaration? 2).any fun d =>
          d.parameters.map (fun q => q.slots.map Slot.raw) ==
            [[some "true", none], [some "@d.out"]]) = true := by
    decide +kernel
  obtain ⟨n, hn, hrun⟩ := toOption_any.1 hrun
  obtain ⟨hnames, hrun⟩ := Bool.and_eq_true_iff.1 hrun
  obtain ⟨e, he, hrun⟩ := toOption_any.1 hrun
  obtain ⟨d, hd, hrun⟩ := (Option.any_eq_true _ _).1 hrun
  obtain ⟨hexpands, -, -, hany⟩ := expandStars_exact hn (of_decide_eq_true hnames)
  exact ⟨n, e, d, hn, of_decide_eq_true hnames, he, hexpands e he,
    (hany _ (List.reverse_perm _) e).2 he, hd, beq_iff_eq.1 hrun⟩

end BlockDraft

end Blockwork
