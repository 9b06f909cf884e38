import Blockwork.Proofs.LibraryRuns

/-!
# Inclusions that go round in a circle

A block that includes itself, directly or through others, is never loaded, and neither is a block
that includes such a block. What is reported for a circle names different blocks, each of which
includes the next and the last one the first, also where the report was handed on to blocks outside
the circle and kept for them (`Library.inclusion_cycles`).

Every report that is kept or handed on can be traced to a block that is reached by inclusion
(`Traced`). Drafts that are added later do not change this.
-/

namespace Blockwork

open Relation

variable {drafts drafts' : List BlockDraft} {outer inner name member : String} {d : Diagnostic}

instance : Decidable (Includes drafts outer inner) :=
  inferInstanceAs (Decidable (∃ b ∈ drafts, b.name = outer ∧ inner ∈ b.includes))

theorem Includes.mono (hsub : drafts ⊆ drafts') (h : Includes drafts outer inner) :
    Includes drafts' outer inner :=
  let ⟨b, hb, hincludes⟩ := h
  ⟨b, hsub hb, hincludes⟩

/-- What is reported for a block: it stands in the source of a block that is reached by inclusion,
and if inclusions go round in a circle, it names one. -/
structure Traced (drafts : List BlockDraft) (name : String) (d : Diagnostic) : Prop where
  circle : d.kind = .cyclicBlockDependency → IsCircle (Includes drafts) d.cycle
  place : ∃ b ∈ drafts, ReflTransGen (Includes drafts) name b.name ∧ d.location.IsIn b.source

theorem Traced.mono (hsub : drafts ⊆ drafts') (h : Traced drafts name d) :
    Traced drafts' name d where
  circle hkind := (h.circle hkind).mono fun _ _ => Includes.mono hsub
  place :=
    let ⟨b, hb, hreach, hlocation⟩ := h.place
    ⟨b, hsub hb, hreach.lift id fun _ _ => Includes.mono hsub, hlocation⟩

theorem Catalog.blames_traced (c : Catalog) (drafts : List BlockDraft) :
    c.Blames drafts (Traced drafts) where
  own b hb _ _ hd := ⟨fun hkind => absurd hkind hd.kind, b, hb, .refl, hd.location⟩
  circle _ hcircle _ hname b hb hmem :=
    ⟨fun _ => hcircle, b, hb, (hcircle.transGen hname hmem).to_reflTransGen, b.isIn_location⟩
  included _ _ hincludes _ hd :=
    let ⟨b, hb, hreach, hlocation⟩ := hd.place
    ⟨hd.circle, b, hb, .head hincludes hreach, hlocation⟩

/-- All that a block that loads includes, directly or through others, loads as well. -/
theorem Catalog.Loads.reached {c : Catalog} {p : Plan} (h : c.Loads drafts name p)
    (hnodup : (drafts.map BlockDraft.name).Nodup)
    (hreach : ReflTransGen (Includes drafts) name member) : ∃ q, c.Loads drafts member q := by
  induction hreach with
  | refl => exact ⟨p, h⟩
  | tail _ hincludes ih =>
    obtain ⟨q, hq⟩ := ih
    exact hq.included hnodup hincludes

namespace Library

section Calls

variable {c : Catalog} {s : List BlockDraft × Library} {l : Library}

variable (hc : c.Registered)
include hc

/-- Reports stay traced whatever is called. -/
theorem traced_afterCall (hs : Idle c s) (htraced : Consistent c s.1 (Traced s.1) s.2)
    (call : Call) (hfit : CopiesFit (afterCall s call).1) :
    Consistent c (afterCall s call).1 (Traced (afterCall s call).1) (afterCall s call).2 := by
  cases call with
  | addDraft b =>
    rcases afterCall_addDraft s b with h | ⟨l', hok, h⟩ <;> rw [h]
    · exact htraced
    · exact htraced.addDraft hok fun _ _ hd => hd.mono (List.subset_append_left ..)
  | load name =>
    exact (leads_load hc hs.nodup (c.blames_traced s.1) hfit htraced hs.idle name).consistent

theorem traced_afterCalls (calls : List Call) (hs : Idle c s)
    (htraced : Consistent c s.1 (Traced s.1) s.2) (hfit : CopiesFit (calls.foldl afterCall s).1) :
    Consistent c (calls.foldl afterCall s).1 (Traced (calls.foldl afterCall s).1)
      (calls.foldl afterCall s).2 := by
  induction calls generalizing s with
  | nil => exact htraced
  | cons call calls ih =>
    have hnext := hfit.mono (subset_afterCalls calls)
    exact ih (hs.afterCall hc call hnext) (traced_afterCall hc hs htraced call hnext) hfit

/-- After any calls, no block from which a circle of inclusions is reached is loaded. As long as the
occurrences of parameters can be counted, it is rejected, and all reports that are kept or come of a
load and say that inclusions go round in a circle name the members of one. -/
theorem inclusion_cycles {calls : List Call} (hrun : afterCalls c calls = (drafts, l)) :
    (∀ name member, ReflTransGen (Includes drafts) name member →
      TransGen (Includes drafts) member member → ∀ p, ((load name).run.run l).1 ≠ .ok p) ∧
    (CopiesFit drafts →
      (∀ name d, l.progress? name = some (.failed d) ∨
        ((load name).run.run l).1 = .error (.rejected d) → d.kind = .cyclicBlockDependency →
          IsCircle (Includes drafts) d.cycle) ∧
      ∀ name member, ReflTransGen (Includes drafts) name member →
        TransGen (Includes drafts) member member →
          ∃ d, ((load name).run.run l).1 = .error (.rejected d)) := by
  have hnone : ∀ name member, ReflTransGen (Includes drafts) name member →
      TransGen (Includes drafts) member member → ∀ p, ((load name).run.run l).1 ≠ .ok p := by
    intro name member hreach hcycle p hp
    have hstocked := stocked_afterCalls c calls
    rw [hrun] at hstocked
    have hnodup : (drafts.map BlockDraft.name).Nodup := hstocked.nodup
    -- All blocks that are reached would load, those of the circle among them.
    have hloads := ((compiles_loads hnodup).load name l hstocked.loading).2 p hp
    obtain ⟨q, hq⟩ := hloads.reached hnodup hreach
    exact hq.acyclic hnodup hcycle
  refine ⟨hnone, fun hfit => ?_⟩
  have hs := idle_afterCalls hc hrun hfit
  have htraced : Consistent c drafts (Traced drafts) l := by
    have hcalls := traced_afterCalls hc (s := ([], ofCatalog c)) calls
      ⟨consistent_ofCatalog c _, List.nodup_nil, rfl⟩ (consistent_ofCatalog c _)
    unfold afterCalls at hrun
    rw [hrun] at hcalls
    exact hcalls hfit
  have hload := leads_load hc hs.nodup (c.blames_traced drafts) hfit htraced hs.idle
  refine ⟨?_, fun name member hreach hcycle => ?_⟩
  · rintro name d (hkept | hresult) hkind
    · exact (htraced.failed name d hkept).circle hkind
    · rcases ((hload name).rejected _ hresult).2 d rfl with htrace | ⟨-, rfl⟩
      · exact htrace.circle hkind
      · cases hkind
  · cases hresult : ((load name).run.run l).1 with
    | error f =>
      obtain ⟨⟨d, rfl⟩, -⟩ := (hload name).rejected f hresult
      exact ⟨d, rfl⟩
    | ok p => exact absurd hresult (hnone name member hreach hcycle p)

end Calls

/-! ### A ring

Two blocks include each other, and one of them is included from outside. -/

/-- Calls that load a block from which the ring of `left` and `right` is reached. -/
def ringCalls : List Call :=
  [.addDraft ((BlockDraft.new "outer").addDeclaration (.new "l" (.block "left"))),
    .addDraft ((BlockDraft.new "left").addDeclaration (.new "r" (.block "right"))),
    .addDraft ((BlockDraft.new "right").addDeclaration (.new "l" (.block "left"))),
    .load "outer"]

/-- The outer block keeps the report of the ring, and loading it again fails. -/
theorem inclusion_cycles_ring : ∃ drafts l d,
    afterCalls Catalog.standard ringCalls = (drafts, l) ∧
      l.progress? "outer" = some (.failed d) ∧ d.cycle = ["left", "right"] ∧
        IsCircle (Includes drafts) d.cycle ∧
          ∃ e, ((load "outer").run.run l).1 = .error (.rejected e) := by
  have hfailed : ((afterCalls Catalog.standard ringCalls).2.failed? "outer").any (fun d =>
      decide (d.kind = .cyclicBlockDependency ∧ d.cycle = ["left", "right"])) = true := by
    decide +kernel
  obtain ⟨d, hd, hreport⟩ := (Option.any_eq_true _ _).1 hfailed
  obtain ⟨hkind, hmembers⟩ := of_decide_eq_true hreport
  have hincludes : ∀ x ∈ [("outer", "left"), ("left", "right"), ("right", "left")],
      Includes (afterCalls Catalog.standard ringCalls).1 x.1 x.2 := by
    decide +kernel
  obtain ⟨hcircles, hrejected⟩ := (inclusion_cycles (.ofTypes .standard)
    (show afterCalls Catalog.standard ringCalls = (_, _) from rfl)).2 (by decide +kernel)
  refine ⟨_, _, d, rfl, failed?_eq_some.1 hd, hmembers,
    hcircles "outer" d (.inl (failed?_eq_some.1 hd)) hkind, ?_⟩
  have hring : TransGen (Includes _) "left" "left" :=
    .head (hincludes ("left", "right") (by simp)) (.single (hincludes ("right", "left") (by simp)))
  exact hrejected "outer" "left" (.single (hincludes ("outer", "left") (by simp))) hring

end Library

end Blockwork
