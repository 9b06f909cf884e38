import Blockwork.Proofs.Loading

/-!
# Blocks loaded in any order

What comes of loading a block does not depend on what was loaded before. A block that loads on its
own is loaded after any others, with the same plan, also after some that failed half way through it,
and a block that does not is never loaded (`Library.load_order_irrelevant`).
-/

namespace Blockwork

namespace Library

variable {c : Catalog} {drafts : List BlockDraft} {l : Library} {name : String}

/-- The result is the plan the block loads with, or a rejection if it does not load. -/
def Decides (c : Catalog) (drafts : List BlockDraft) (name : String) (r : Except Fault Plan) :
    Prop :=
  (∃ p, r = .ok p ∧ c.Loads drafts name p) ∨
    ∃ d, r = .error (.rejected d) ∧ ∀ p, ¬c.Loads drafts name p

namespace Decides

variable {r : Except Fault Plan}

theorem eq_ok (h : Decides c drafts name r) (hnodup : (drafts.map BlockDraft.name).Nodup)
    {p : Plan} (hp : c.Loads drafts name p) : r = .ok p := by
  rcases h with ⟨p', rfl, hp'⟩ | ⟨d, rfl, hnone⟩
  · rw [hp'.unique hnodup hp]
  · exact absurd hp (hnone p)

theorem ok_iff (h : Decides c drafts name r) (hnodup : (drafts.map BlockDraft.name).Nodup)
    {p : Plan} : r = .ok p ↔ c.Loads drafts name p := by
  refine ⟨fun hok => ?_, h.eq_ok hnodup⟩
  rcases h with ⟨p', rfl, hp⟩ | ⟨d, rfl, -⟩
  · exact Except.ok.inj hok ▸ hp
  · cases hok

/-- All results are plans just if all blocks load. -/
theorem all_ok_iff {bs : List BlockDraft} {rs : List (Except Fault Plan)}
    (hnodup : (drafts.map BlockDraft.name).Nodup)
    (h : List.Forall₂ (fun (b : BlockDraft) r => Decides c drafts b.name r) bs rs) :
    (∀ r ∈ rs, ∃ p, r = .ok p) ↔ ∀ b ∈ bs, ∃ p, c.Loads drafts b.name p := by
  induction h with
  | nil => simp
  | cons hb _ ih =>
    rw [List.forall_mem_cons, List.forall_mem_cons, ih]
    exact and_congr_left' (exists_congr fun p => hb.ok_iff hnodup)

theorem rejected (h : Decides c drafts name r) (hnone : ∀ p, ¬c.Loads drafts name p) :
    ∃ d, r = .error (.rejected d) := by
  rcases h with ⟨p, rfl, hp⟩ | ⟨d, rfl, -⟩
  · exact absurd hp (hnone p)
  · exact ⟨d, rfl⟩

end Decides

section Loading

variable (hc : c.Registered) (hnodup : (drafts.map BlockDraft.name).Nodup)
  (hfit : CopiesFit drafts)
include hc hnodup hfit

theorem decides_load (hl : Consistent c drafts (fun name _ => ∀ p, ¬c.Loads drafts name p) l)
    (hidle : l.running = []) (name : String) :
    Decides c drafts name ((load name).run.run l).1 := by
  obtain ⟨hm, -, hok, hrejected⟩ :=
    leads_load hc hnodup (c.blames_unloadable hnodup) hfit hl hidle name
  cases hresult : ((load name).run.run l).1 with
  | ok p => exact .inl ⟨p, rfl, hm.ready name p (hok p hresult)⟩
  | error f =>
    obtain ⟨⟨d, rfl⟩, hnone⟩ := hrejected f hresult
    refine .inr ⟨d, rfl, fun p hp => ?_⟩
    rcases hnone d rfl with hnone | ⟨hnone, -⟩
    · exact hnone p hp
    · obtain ⟨b, hb, hname⟩ := hp.exists_draft
      exact hnone b hb hname

/-- What holds of a load from any consistent library holds of all loads made in turn. -/
theorem forall₂_loadAll {F : String → Diagnostic → Prop} {P : String → Except Fault Plan → Prop}
    (hF : c.Blames drafts F) (hP : ∀ l name, Consistent c drafts F l → l.running = [] →
      P name ((load name).run.run l).1) :
    ∀ {names : List String} {l : Library}, Consistent c drafts F l → l.running = [] →
      List.Forall₂ P names ((loadAll names).run l).1
  | [], _, _, _ => .nil
  | name :: _, l, hl, hidle => by
    have hload := leads_load hc hnodup hF hfit hl hidle name
    exact .cons (hP l name hl hidle)
      (forall₂_loadAll hF hP hload.consistent (hload.advances.running.trans hidle))

/-- Blocks that are loaded in turn are all decided on, whatever came of those before. -/
theorem decides_loadAll {names : List String}
    (hl : Consistent c drafts (fun name _ => ∀ p, ¬c.Loads drafts name p) l)
    (hidle : l.running = []) :
    List.Forall₂ (Decides c drafts) names ((loadAll names).run l).1 :=
  forall₂_loadAll hc hnodup hfit (c.blames_unloadable hnodup)
    (fun _ name hl hidle => decides_load hc hnodup hfit hl hidle name) hl hidle

end Loading

/-- A block that is loaded by two sequences of loads from a bundle never gets different plans in
them. As long as the occurrences of parameters can be counted, it gets the same plan in both, and so
the same summary, or is rejected in both. The block alone gets the same as well. -/
theorem load_order_irrelevant {b : Bundle} (hok : ofBundle b = .ok l) {names names' : List String}
    {i j : Nat} (hi : names[i]? = some name) (hj : names'[j]? = some name) :
    ∃ r r', ((loadAll names).run l).1[i]? = some r ∧ ((loadAll names').run l).1[j]? = some r' ∧
      (∀ p p', r = .ok p → r' = .ok p' → p = p') ∧
      (CopiesFit b.blocks → (∃ p, r = .ok p ∧ r' = .ok p ∧ ((load name).run.run l).1 = .ok p) ∨
        ∃ d d' e, r = .error (.rejected d) ∧ r' = .error (.rejected d') ∧
          ((load name).run.run l).1 = .error (.rejected e)) := by
  have hc := (serving_ofBundle hok).1
  obtain ⟨hl, hnodup, hidle⟩ :=
    consistent_ofBundle hok fun name => ∀ p, ¬l.catalog.Loads b.blocks name p
  have hloads := fun names => (compiles_loads hnodup).loadAll names (hl.loading hnodup)
  obtain ⟨r, hr, hp⟩ := exists_getElem?_of_forall₂ (hloads names) hi
  obtain ⟨r', hr', hp'⟩ := exists_getElem?_of_forall₂ (hloads names') hj
  refine ⟨r, r', hr, hr', fun p p' hok hok' => (hp p hok).unique hnodup (hp' p' hok'),
    fun hfit => ?_⟩
  have hdecided : ∀ {names : List String} {i : Nat} {r : Except Fault Plan},
      names[i]? = some name → ((loadAll names).run l).1[i]? = some r →
        Decides l.catalog b.blocks name r := fun hi hr => by
    obtain ⟨r, hr', hdecides⟩ :=
      exists_getElem?_of_forall₂ (decides_loadAll hc hnodup hfit hl hidle) hi
    exact Option.some.inj (hr'.symm.trans hr) ▸ hdecides
  have hdecides' := hdecided hj hr'
  have halone := decides_load hc hnodup hfit hl hidle name
  rcases hdecided hi hr with ⟨p, rfl, hplan⟩ | ⟨d, rfl, hnone⟩
  · exact .inl ⟨p, rfl, hdecides'.eq_ok hnodup hplan, halone.eq_ok hnodup hplan⟩
  · obtain ⟨d', hd'⟩ := hdecides'.rejected hnone
    obtain ⟨e, he⟩ := halone.rejected hnone
    exact .inr ⟨d, d', e, rfl, hd', he⟩

/-! ### A knot

Two blocks include each other, one of them a third as well. The third loads after they failed. -/

/-- The blocks `left` and `right` that include each other, and the block `leaf`. -/
def knot : Bundle :=
  { types := []
    components := []
    blocks := [
      (BlockDraft.new "left").addDeclaration (.new "r" (.block "right")),
      ((BlockDraft.new "right").addDeclaration (.new "x" (.block "leaf"))).addDeclaration
        (.new "l" (.block "left")),
      BlockDraft.new "leaf"] }

/-- The leaf is loaded on the way to a failure, and is the same as it is alone. -/
theorem load_order_irrelevant_knot : ∃ l p, ofBundle knot = .ok l ∧
    ((loadAll ["ghost", "right", "left", "leaf"]).run l).1[3]? = some (.ok p) ∧
      ((loadAll ["leaf"]).run l).1[0]? = some (.ok p) := by
  have hrun : (ofBundle knot).toOption.any (fun l =>
      (((loadAll ["leaf"]).run l).1[0]?).any fun r => r.toOption.isSome) = true := by
    decide +kernel
  obtain ⟨l, hl, hrun⟩ := (Option.any_eq_true _ _).1 hrun
  obtain ⟨r₀, hr₀, hsome⟩ := (Option.any_eq_true _ _).1 hrun
  have hok := toOption_eq_some.1 hl
  obtain ⟨r, r', hr, hr', -, hsame⟩ :=
    load_order_irrelevant hok (show ["ghost", "right", "left", "leaf"][3]? = some "leaf" from rfl)
      (show ["leaf"][0]? = some "leaf" from rfl)
  rcases hsame (by decide +kernel) with ⟨p, rfl, rfl, -⟩ | ⟨d, d', -, -, rfl, -⟩
  · exact ⟨l, p, hok, hr, hr'⟩
  · obtain rfl := Option.some.inj (hr₀.symm.trans hr')
    cases hsome

end Library

end Blockwork
