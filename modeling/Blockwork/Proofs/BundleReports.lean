import Blockwork.Proofs.InclusionCycles
import Blockwork.Proofs.LoadOrder
import Mathlib.Data.List.TakeWhile

/-!
# What a bundle reports

A bundle is compiled to one summary for each block if all blocks load, and otherwise to the reports
of those that do not. Of reports that read alike only the first is listed, so the failures of two
blocks are listed apart just if their reports read differently (`Library.listed_apart_iff`). They do
if all sources the two blocks and what they include were read from are shown differently
(`BlockDraft.ShownApart`). Blocks of one source may share an entry, although neither has to do with
the other (`Library.shared_report`).
-/

namespace Blockwork

open Relation

/-! ## How reports read -/

theorem toList_text_source (origin : String) (k : UInt32) :
    (Location.source origin (some k)).text.toList =
      origin.toList ++ ':' :: (toString k.toNat).toList := by
  unfold Location.text
  rw [String.toList_append, String.toList_append, List.append_assoc]
  rfl

theorem not_mem_text_source {origin : String} (h : '(' ∉ origin.toList) (line : Option UInt32) :
    '(' ∉ (Location.source origin line).text.toList := by
  cases line with
  | none => exact h
  | some k =>
    have hdigits : '(' ∉ (toString k.toNat).toList := fun hmem => by
      have hmem : '(' ∈ Nat.toDigits 10 k.toNat := by simpa [Nat.repr] using hmem
      exact absurd (Nat.isDigit_of_mem_toDigits (by decide) (by decide) hmem) (by decide)
    rw [toList_text_source, List.mem_append, List.mem_cons, not_or, not_or]
    exact ⟨h, by decide, hdigits⟩

/-- The name of a source without colons ends at the colon before the line. -/
theorem takeWhile_text_source {origin : String} (h : ':' ∉ origin.toList) (line : Option UInt32) :
    (Location.source origin line).text.toList.takeWhile (· != ':') = origin.toList := by
  cases line with
  | none => exact List.takeWhile_eq_self_iff.2 (bne_of_not_mem h)
  | some k => rw [toList_text_source, takeWhile_bne_split h]

/-- The place is what stands in the last parentheses of a report. -/
theorem takeWhile_text_reverse {d : Diagnostic} (h : '(' ∉ d.location.text.toList) :
    d.text.toList.reverse.takeWhile (· != '(') = ')' :: d.location.text.toList.reverse := by
  have hplace : '(' ∉ ')' :: d.location.text.toList.reverse := by
    rw [List.mem_cons, List.mem_reverse, not_or]
    exact ⟨by decide, h⟩
  obtain ⟨before, hbefore⟩ : ∃ before, d.text.toList.reverse =
      (')' :: d.location.text.toList.reverse) ++ '(' :: before :=
    ⟨_, by simp [Diagnostic.text, String.toList_append]; rfl⟩
  rw [hbefore, takeWhile_bne_split hplace]

/-- No line of one source is shown as one of the other. -/
structure BlockDraft.ShownApart (x y : BlockDraft) : Prop where
  left : '(' ∉ x.source.toList
  right : '(' ∉ y.source.toList
  lines : ∀ line line', (Location.source x.source line).text ≠ (Location.source y.source line').text

namespace BlockDraft.ShownApart

variable {x y : BlockDraft}

/-- Sources of different names without colons are shown differently. -/
theorem of_ne (hne : x.source ≠ y.source) (hx : '(' ∉ x.source.toList ∧ ':' ∉ x.source.toList)
    (hy : '(' ∉ y.source.toList ∧ ':' ∉ y.source.toList) : x.ShownApart y := by
  refine ⟨hx.1, hy.1, fun line line' htext => hne (String.toList_inj.1 ?_)⟩
  rw [← takeWhile_text_source hx.2 line, htext, takeWhile_text_source hy.2]

/-- Reports from sources that are shown differently read differently. -/
theorem text_ne (h : x.ShownApart y) {d e : Diagnostic} (hd : d.location.IsIn x.source)
    (he : e.location.IsIn y.source) : d.text ≠ e.text := by
  obtain ⟨line, hline⟩ := hd
  obtain ⟨line', hline'⟩ := he
  have hd := takeWhile_text_reverse (d := d) (hline ▸ not_mem_text_source h.left line)
  have he := takeWhile_text_reverse (d := e) (hline' ▸ not_mem_text_source h.right line')
  intro htext
  rw [htext, he] at hd
  have hplace := List.reverse_injective (List.cons.inj hd).2
  refine h.lines line line' (String.toList_inj.1 ?_)
  rw [← hline, ← hline', hplace]

end BlockDraft.ShownApart

namespace Library

/-! ## Reports that read alike -/

section Faults

variable {seen : List String} {rs : List (Except Fault Plan)}

theorem exists_error_cons {f : Fault} {t : String} :
    (∃ g, (.error g : Except Fault Plan) ∈ .error f :: rs ∧ g.text = t) ↔
      f.text = t ∨ ∃ g, .error g ∈ rs ∧ g.text = t := by
  simp [or_and_right, exists_or]

/-- The texts that are listed are those of all faults but for those that were seen. -/
theorem mem_texts_faultsOf {t : String} : t ∈ (faultsOf seen rs).map Fault.text ↔
    t ∉ seen ∧ ∃ f, .error f ∈ rs ∧ f.text = t := by
  fun_induction faultsOf seen rs with
  | case1 => simp
  | case2 seen p rest ih => simp [ih]
  | case3 seen f rest hseen ih =>
    have hmem : f.text ∈ seen := List.contains_iff_mem.1 hseen
    rw [ih, exists_error_cons]
    exact and_congr_right fun ht =>
      (or_iff_right fun heq : f.text = t => ht (heq ▸ hmem)).symm
  | case4 seen f rest hseen ih =>
    have hnew : f.text ∉ seen := fun hmem => hseen (List.contains_iff_mem.2 hmem)
    rw [List.map_cons, List.mem_cons, ih, exists_error_cons, List.mem_cons, not_or]
    by_cases ht : t = f.text
    · subst ht
      simp [hnew]
    · simp [ht, Ne.symm ht]

theorem nodup_texts_faultsOf : ((faultsOf seen rs).map Fault.text).Nodup := by
  fun_induction faultsOf seen rs with
  | case1 => exact List.nodup_nil
  | case2 seen p rest ih => exact ih
  | case3 seen f rest hseen ih => exact ih
  | case4 seen f rest hseen ih =>
    refine List.nodup_cons.2 ⟨fun hmem => ?_, ih⟩
    exact (mem_texts_faultsOf.1 hmem).1 List.mem_cons_self

theorem faultsOf_eq_nil : faultsOf [] rs = [] ↔ ∀ r ∈ rs, ∃ p, r = .ok p := by
  constructor
  · rintro hnil (f | p) hr
    · have hmem : f.text ∈ (faultsOf [] rs).map Fault.text :=
        mem_texts_faultsOf.2 ⟨List.not_mem_nil, f, hr, rfl⟩
      rw [hnil] at hmem
      cases hmem
    · exact ⟨p, rfl⟩
  · intro hall
    by_contra hne
    obtain ⟨f, hf⟩ := List.exists_mem_of_ne_nil _ hne
    obtain ⟨-, g, hg, -⟩ := mem_texts_faultsOf.1 (List.mem_map_of_mem hf)
    obtain ⟨p, hp⟩ := hall _ hg
    cases hp

/-- Two entries of the list, one that reads like each fault. -/
def ListedApart (fs : List Fault) (f g : Fault) : Prop :=
  ∃ i j : Nat, i ≠ j ∧ (fs.map Fault.text)[i]? = some f.text ∧ (fs.map Fault.text)[j]? = some g.text

theorem listedApart_faultsOf {f g : Fault} (hf : .error f ∈ rs) (hg : .error g ∈ rs) :
    ListedApart (faultsOf [] rs) f g ↔ f.text ≠ g.text := by
  have hlisted : ∀ {h : Fault}, .error h ∈ rs → h.text ∈ (faultsOf [] rs).map Fault.text :=
    fun {h} hh => mem_texts_faultsOf.2 ⟨List.not_mem_nil, h, hh, rfl⟩
  constructor
  · rintro ⟨i, j, hij, hi, hj⟩ heq
    have hlt := (List.getElem?_eq_some_iff.1 hi).1
    exact hij ((List.getElem?_inj hlt nodup_texts_faultsOf).1 (hi.trans (heq ▸ hj.symm)))
  · intro hne
    obtain ⟨i, hi⟩ := List.mem_iff_getElem?.1 (hlisted hf)
    obtain ⟨j, hj⟩ := List.mem_iff_getElem?.1 (hlisted hg)
    refine ⟨i, j, ?_, hi, hj⟩
    rintro rfl
    exact hne (Option.some.inj (hi.symm.trans hj))

/-- If all loads succeed, there is a plan for each. -/
theorem forall₂_plansOf {α : Type} {R : α → Except Fault Plan → Prop} {as : List α}
    (h : List.Forall₂ R as rs) (hall : ∀ r ∈ rs, ∃ p, r = .ok p) :
    List.Forall₂ (fun a p => R a (.ok p)) as (plansOf rs) := by
  induction h with
  | nil => exact .nil
  | cons ha _ ih =>
    obtain ⟨⟨p, rfl⟩, hrest⟩ := List.forall_mem_cons.1 hall
    exact .cons ha (ih hrest)

end Faults

/-! ## Compiling a bundle -/

theorem foldl_blockNames :
    ∀ {bs : List BlockDraft} (names : List String), (names ++ bs.map BlockDraft.name).Nodup →
      bs.foldl (fun names d => if names.contains d.name then names else names ++ [d.name]) names =
        names ++ bs.map BlockDraft.name
  | [], names, _ => by simp
  | d :: bs, names, h => by
    rw [List.map_cons, List.append_cons] at h ⊢
    have hnew : ¬names.contains d.name = true := fun hmem =>
      (List.nodup_append.1 (List.nodup_append.1 h).1).2.2 d.name (List.contains_iff_mem.1 hmem)
        d.name (List.mem_singleton_self _) rfl
    rw [List.foldl_cons, if_neg hnew]
    exact foldl_blockNames _ h

/-- Different names are all kept. -/
theorem blockNames_eq {b : Bundle} (h : (b.blocks.map BlockDraft.name).Nodup) :
    blockNames b = b.blocks.map BlockDraft.name :=
  (foldl_blockNames [] h).trans (List.nil_append _)

/-- What came of the blocks of a bundle, in order. -/
def resultsOf (b : Bundle) (l : Library) : List (Except Fault Plan) :=
  ((loadAll (blockNames b)).run l).1

section Bundle

variable {b : Bundle} {l : Library}

theorem compileBundle_eq (hok : ofBundle b = .ok l) : compileBundle b =
    match faultsOf [] (resultsOf b l) with
    | [] => .ok ((plansOf (resultsOf b l)).map Plan.summary)
    | faults => .error faults := by
  unfold compileBundle
  rw [hok]
  rfl

theorem compileBundle_of_eq_nil (hok : ofBundle b = .ok l)
    (h : faultsOf [] (resultsOf b l) = []) :
    compileBundle b = .ok ((plansOf (resultsOf b l)).map Plan.summary) := by
  rw [compileBundle_eq hok, h]

theorem compileBundle_of_ne_nil (hok : ofBundle b = .ok l)
    (h : faultsOf [] (resultsOf b l) ≠ []) :
    compileBundle b = .error (faultsOf [] (resultsOf b l)) := by
  rw [compileBundle_eq hok]
  split
  · exact absurd ‹_› h
  · rfl

theorem exists_compileBundle (hok : ofBundle b = .ok l) :
    (∃ ss, compileBundle b = .ok ss) ↔ ∀ r ∈ resultsOf b l, ∃ p, r = .ok p := by
  rw [← faultsOf_eq_nil]
  constructor
  · rintro ⟨ss, hss⟩
    by_contra hne
    rw [compileBundle_of_ne_nil hok hne] at hss
    cases hss
  · exact fun hnil => ⟨_, compileBundle_of_eq_nil hok hnil⟩

/-! ## What comes of the blocks -/

theorem forall₂_resultsOf (hok : ofBundle b = .ok l)
    {P : String → Except Fault Plan → Prop}
    (h : ∀ names, List.Forall₂ P names ((loadAll names).run l).1) :
    List.Forall₂ (fun (x : BlockDraft) r => P x.name r) b.blocks (resultsOf b l) := by
  unfold resultsOf
  rw [blockNames_eq (fresh_ofBundle hok).2.1]
  exact List.forall₂_map_left_iff.1 (h _)

/-- Each block is decided on as it is alone. -/
theorem decides_resultsOf (hfit : CopiesFit b.blocks) (hok : ofBundle b = .ok l) : List.Forall₂
    (fun (x : BlockDraft) r => Decides l.catalog b.blocks x.name r) b.blocks (resultsOf b l) := by
  obtain ⟨hl, hnodup, hidle⟩ := fresh_ofBundle hok
  exact forall₂_resultsOf hok fun _ => decides_loadAll (serving_ofBundle hok).1 hnodup hfit
    (hl.mark fun _ _ => False.elim) hidle

/-- What a block is rejected for can be traced. -/
theorem traced_resultsOf (hfit : CopiesFit b.blocks) (hok : ofBundle b = .ok l) : List.Forall₂
    (fun (x : BlockDraft) r => ∀ d, r = .error (.rejected d) → Traced b.blocks x.name d ∨
      ∀ y ∈ b.blocks, y.name ≠ x.name) b.blocks (resultsOf b l) := by
  obtain ⟨hl, hnodup, hidle⟩ := fresh_ofBundle hok
  have hblames := l.catalog.blames_traced b.blocks
  refine forall₂_resultsOf hok (P := fun name r => ∀ d, r = .error (.rejected d) →
    Traced b.blocks name d ∨ ∀ y ∈ b.blocks, y.name ≠ name) fun names =>
      forall₂_loadAll (serving_ofBundle hok).1 hnodup hfit hblames (fun m name hm hmidle d hd => ?_)
        (hl.mark fun _ _ => False.elim) hidle
  have hload := leads_load (serving_ofBundle hok).1 hnodup hblames hfit hm hmidle name
  exact ((hload.rejected _ hd).2 d rfl).imp_right And.left

/-- A block that does not load is rejected, for something that can be traced. -/
theorem exists_rejected_resultsOf (hfit : CopiesFit b.blocks) (hok : ofBundle b = .ok l)
    {i : Nat} {x : BlockDraft} (hx : b.blocks[i]? = some x)
    (hnone : ∀ p, ¬l.catalog.Loads b.blocks x.name p) :
    ∃ d, (resultsOf b l)[i]? = some (.error (.rejected d)) ∧ Traced b.blocks x.name d := by
  obtain ⟨r, hr, hdecides⟩ := exists_getElem?_of_forall₂ (decides_resultsOf hfit hok) hx
  obtain ⟨r', hr', htraced⟩ := exists_getElem?_of_forall₂ (traced_resultsOf hfit hok) hx
  obtain rfl := Option.some.inj (hr.symm.trans hr')
  obtain ⟨d, rfl⟩ := hdecides.rejected hnone
  exact ⟨d, hr, (htraced d rfl).resolve_right fun h => h x (List.mem_of_getElem? hx) rfl⟩

/-- All sources that are reached from the one block are shown apart from all that are reached from
the other. -/
def SourcesApart (b : Bundle) (x y : BlockDraft) : Prop :=
  ∀ x' ∈ b.blocks, ∀ y' ∈ b.blocks, ReflTransGen (Includes b.blocks) x.name x'.name →
    ReflTransGen (Includes b.blocks) y.name y'.name → x'.ShownApart y'

theorem SourcesApart.text_ne {x y : BlockDraft} (h : SourcesApart b x y) {d e : Diagnostic}
    (hd : Traced b.blocks x.name d) (he : Traced b.blocks y.name e) : d.text ≠ e.text := by
  obtain ⟨x', hx', hreach, hlocation⟩ := hd.place
  obtain ⟨y', hy', hreach', hlocation'⟩ := he.place
  exact (h x' hx' y' hy' hreach hreach').text_ne hlocation hlocation'

/-- A bundle is compiled just if all its blocks load, and then to the summaries of their plans. If
two blocks do not load, their failures are listed apart just if they read differently, which they do
if the sources that are reached from the two blocks are shown apart. -/
theorem listed_apart_iff (hok : ofBundle b = .ok l) (hfit : CopiesFit b.blocks) :
    ((∃ ss, compileBundle b = .ok ss) ↔
      ∀ x ∈ b.blocks, ∃ p, ((load x.name).run.run l).1 = .ok p) ∧
    (∀ ss, compileBundle b = .ok ss → List.Forall₂
      (fun (x : BlockDraft) s => ∃ p, ((load x.name).run.run l).1 = .ok p ∧ s = p.summary)
        b.blocks ss) ∧
    ∀ (i j : Nat) (x y : BlockDraft), b.blocks[i]? = some x → b.blocks[j]? = some y →
      (∀ p, ((load x.name).run.run l).1 ≠ .ok p) → (∀ p, ((load y.name).run.run l).1 ≠ .ok p) →
        ∃ f g fs, (resultsOf b l)[i]? = some (.error f) ∧ (resultsOf b l)[j]? = some (.error g) ∧
          compileBundle b = .error fs ∧ (ListedApart fs f g ↔ f.text ≠ g.text) ∧
            (SourcesApart b x y → ListedApart fs f g) := by
  have hc := (serving_ofBundle hok).1
  obtain ⟨hl, hnodup, hidle⟩ := fresh_ofBundle hok
  have hload : ∀ name p, ((load name).run.run l).1 = .ok p ↔ l.catalog.Loads b.blocks name p :=
    fun name p =>
      (decides_load hc hnodup hfit (hl.mark fun _ _ => False.elim) hidle name).ok_iff hnodup
  have hresults := decides_resultsOf hfit hok
  simp only [hload, ne_eq]
  refine ⟨(exists_compileBundle hok).trans (Decides.all_ok_iff hnodup hresults), fun ss hss => ?_,
    fun i j x y hx hy hxnone hynone => ?_⟩
  · have hall := (exists_compileBundle hok).1 ⟨ss, hss⟩
    rw [compileBundle_of_eq_nil hok (faultsOf_eq_nil.2 hall)] at hss
    obtain rfl := Except.ok.inj hss
    exact List.forall₂_map_right_iff.2 ((forall₂_plansOf hresults hall).imp fun x p hp =>
      ⟨p, (hp.ok_iff hnodup).1 rfl, rfl⟩)
  · obtain ⟨d, hd, hdtraced⟩ := exists_rejected_resultsOf hfit hok hx hxnone
    obtain ⟨e, he, hetraced⟩ := exists_rejected_resultsOf hfit hok hy hynone
    have hne : faultsOf [] (resultsOf b l) ≠ [] := fun hnil => by
      obtain ⟨p, hp⟩ := faultsOf_eq_nil.1 hnil _ (List.mem_of_getElem? hd)
      cases hp
    have hiff := listedApart_faultsOf (List.mem_of_getElem? hd) (List.mem_of_getElem? he)
    exact ⟨_, _, _, hd, he, compileBundle_of_ne_nil hok hne, hiff, fun hapart =>
      hiff.2 (hapart.text_ne hdtraced hetraced)⟩

end Bundle

/-! ### A pair

Two blocks that have nothing to do with each other use the same unknown component. -/

/-- The blocks `left` and `right` of the given sources. -/
def pair (left right : String) : Bundle :=
  { types := []
    components := []
    blocks := [
      { (BlockDraft.new "left").addDeclaration (.new "x" (.component "Missing")) with
        origin := some left },
      { (BlockDraft.new "right").addDeclaration (.new "x" (.component "Missing")) with
        origin := some right }] }

theorem not_includes_pair (left right outer inner : String) :
    ¬Includes (pair left right).blocks outer inner := by
  rintro ⟨b, hb, -, hinner⟩
  rcases List.mem_cons.1 hb with rfl | hb
  · cases hinner
  · obtain rfl := List.mem_singleton.1 hb
    cases hinner

theorem eq_of_reached_pair {left right outer inner : String}
    (h : ReflTransGen (Includes (pair left right).blocks) outer inner) : outer = inner := by
  rcases h.cases_head with heq | ⟨_, hincludes, -⟩
  · exact heq
  · exact absurd hincludes (not_includes_pair left right outer _)

/-- In different sources, the failures of the two blocks are listed apart. -/
theorem listed_apart_iff_pair : ∃ l f g fs, ofBundle (pair "f" "g") = .ok l ∧
    compileBundle (pair "f" "g") = .error fs ∧ ListedApart fs f g := by
  have hrun : (ofBundle (pair "f" "g")).toOption.any (fun l =>
      ((load "left").run.run l).1.toOption.isNone &&
        ((load "right").run.run l).1.toOption.isNone) = true := by
    decide +kernel
  obtain ⟨l, hl, hnone⟩ := (Option.any_eq_true _ _).1 hrun
  obtain ⟨hleft, hright⟩ := Bool.and_eq_true_iff.1 hnone
  have hok := toOption_eq_some.1 hl
  have hsource : ∀ x ∈ (pair "f" "g").blocks,
      (x.name = "left" → x.source = "f") ∧ (x.name = "right" → x.source = "g") := by
    decide
  obtain ⟨-, -, hlisted⟩ := listed_apart_iff hok (by decide +kernel)
  obtain ⟨f, g, fs, -, -, hfs, -, hapart⟩ := hlisted 0 1 _ _ rfl rfl
    (ne_ok_of_isNone hleft) (ne_ok_of_isNone hright)
  refine ⟨l, f, g, fs, hok, hfs, hapart fun x hx y hy hreach hreach' => ?_⟩
  have hx := (hsource x hx).1 (eq_of_reached_pair hreach).symm
  have hy := (hsource y hy).2 (eq_of_reached_pair hreach').symm
  refine .of_ne ?_ ?_ ?_
  · rw [hx, hy]
    decide
  · rw [hx]
    decide
  · rw [hy]
    decide

/-- In one source, the two blocks share an entry. -/
theorem shared_report : ∃ l f, ofBundle (pair "f" "f") = .ok l ∧
    (∀ x ∈ (pair "f" "f").blocks, ∀ p, ((load x.name).run.run l).1 ≠ .ok p) ∧
      (∀ outer inner, ¬Includes (pair "f" "f").blocks outer inner) ∧
        compileBundle (pair "f" "f") = .error [f] := by
  have hrun : (ofBundle (pair "f" "f")).toOption.any (fun l =>
      ((pair "f" "f").blocks.all fun x => ((load x.name).run.run l).1.toOption.isNone) &&
        (faultsOf [] (resultsOf (pair "f" "f") l)).length == 1) = true := by
    decide +kernel
  obtain ⟨l, hl, hrun⟩ := (Option.any_eq_true _ _).1 hrun
  obtain ⟨hnone, hlength⟩ := Bool.and_eq_true_iff.1 hrun
  obtain ⟨f, hf⟩ := List.length_eq_one_iff.1 (beq_iff_eq.1 hlength)
  have hok := toOption_eq_some.1 hl
  refine ⟨l, f, hok, fun x hx => ne_ok_of_isNone (List.all_eq_true.1 hnone x hx),
    not_includes_pair "f" "f", ?_⟩
  rw [compileBundle_of_ne_nil hok (by simp [hf]), hf]

end Library

end Blockwork
