import Blockwork.Proofs.DraftOrders
import Blockwork.Proofs.FinalTypes

/-!
# Links after freezing

Freezing goes through the attributes of a declaration in a recursion that takes the links between
attributes and outputs away from both ends, but not at once. When it is done the two ends agree
again, and each attribute is either cut off with all the outputs it was declared to be a pipeline
into or has all its links left and refers to something open (`BlockDraft.freezing_whole`).
-/

namespace Blockwork

/-- An attribute frozen to a type is cut off as a whole: it is a pipeline no more, its declared
type holds the type, and the outputs it was declared to be a pipeline into are none either and have
recorded a type that holds it. -/
structure Declaration.Cut (types : Hierarchy) (d : Declaration) (x : Nat × Nat) (s : Slot)
    (type : ClassType) : Prop where
  feeds : s.feeds = []
  declared : types.assignable s.declared type = true
  outputs : ∀ k ∈ d.formalFeeds x, ∃ o r, d.outputs[k]? = some o ∧ o.fedBy = [] ∧
    o.result = some r ∧ types.assignable r type = true

/-- An attribute that is still a pipeline is not frozen, and refers to an input or to an output that
pipelines still lead into. -/
structure Network.Open (n : Network) (s : Slot) : Prop where
  frozen : s.frozen = none
  target : (∃ id, s.binding = .reference (.input id)) ∨
    ∃ id o, s.binding = .reference (.output id) ∧ n.output? id = some o ∧ o.isPipeline = true

namespace Declaration

variable {types : Hierarchy} {known : Nat × Nat → Option ClassType} {d e : Declaration}
  {p a : Nat} {s : Slot}

/-- Freezing cuts off the attributes that it freezes. -/
theorem Fresh.cut_of_frozen (hw : types.WellFormed) (hd : d.Fresh types) (hout : d.HasOutputs)
    (he : d.Frozen types known (d.slots.map Prod.fst) e)
    (hformed : ∀ x t, Freezing d.feedsAt known (d.slots.map Prod.fst) x t → types.Formed t)
    (hs : e.slot? p a = some s) {t : ClassType} (ht : s.frozen = some t) :
    e.Cut types (p, a) s t := by
  obtain ⟨s₀, hs₀, hslot⟩ := he.slot p a s hs
  obtain ⟨_, _, fa, -, -, -, hfresh, hsound⟩ := hd.slot hs₀
  rcases hslot with ⟨type, htype, merged, hmerged, rfl⟩ | ⟨-, rfl⟩
  · obtain rfl : merged = t := Option.some.inj ht
    have hdeclared : types.Formed s₀.declared := hfresh.declared ▸ hsound.formed
    obtain ⟨hbelow, haccepts⟩ := hw.assignable_merge (hformed _ _ htype) hdeclared hmerged
    refine ⟨rfl, haccepts, fun k hk => ?_⟩
    rw [formalFeeds_congr he.bare, ← hd.feedsAt_eq] at hk
    obtain ⟨o₀, ho₀⟩ := hd.exists_output hout hs₀ (Declaration.feedsAt_eq hs₀ ▸ hk)
    obtain ⟨o, ho⟩ : ∃ o, e.outputs[k]? = some o := by
      refine Option.ne_none_iff_exists'.1 fun hnone => ?_
      rw [outputs_eq_none_of_bare he.bare, ho₀] at hnone
      cases hnone
    obtain ⟨o₁, -, ⟨y, type', hky, htype', r, -, -, hr, rfl⟩ | ⟨hnone, rfl⟩⟩ := he.output k o ho
    · -- The output was reached over another attribute, but by the same type.
      obtain rfl := (htype'.of_connected (.of_mem hky hk)).unique htype
      exact ⟨_, r, ho, rfl, rfl, hw.assignable_trans hr hbelow⟩
    · exact absurd htype (hnone (p, a) type hk)
  · rw [hfresh.frozen] at ht
    cases ht

/-- Attributes that are not frozen have all the links they were declared with. -/
theorem Fresh.feeds_of_frozen_eq_none (hd : d.Fresh types)
    (he : d.Frozen types known (d.slots.map Prod.fst) e) (hs : e.slot? p a = some s)
    (hnone : s.frozen = none) : s.feeds = e.formalFeeds (p, a) := by
  obtain ⟨s₀, hs₀, ⟨_, -, _, -, rfl⟩ | ⟨-, rfl⟩⟩ := he.slot p a s hs
  · cases hnone
  · rw [formalFeeds_congr he.bare, ← hd.feedsAt_eq, Declaration.feedsAt_eq hs₀]

end Declaration

namespace Network

variable {n f : Network}

/-- An attribute of a prepared network that is still a pipeline is open. -/
theorem Prepared.open_of_feeds (hf : f.Prepared) {id : SlotId} {s : Slot} (hs : f.slot? id = some s)
    (hfeeds : s.feeds ≠ []) : f.Open s := by
  obtain ⟨d, hd, hslot⟩ := slot?_eq_some.1 hs
  refine ⟨(hf.linked _ d hd).frozen _ _ s hslot hfeeds, ?_⟩
  obtain ⟨t, ht, hopen⟩ := hf.isOpen id s hs hfeeds
  cases t with
  | input id => exact Or.inl ⟨id, ht⟩
  | output id =>
    obtain ⟨o, ho, hfedBy⟩ := hopen
    exact Or.inr ⟨id, o, ht, ho, by simpa [Output.isPipeline] using hfedBy⟩

end Network

namespace BlockDraft

variable {σ : Type} {good : σ → Prop} {c : Catalog} {r : Resolver σ} {b : BlockDraft} {s : σ}
  {n e m f : Network}

/-- After a resolved block is frozen in an order that places each declaration after those it refers
to, an output knows an attribute just if the attribute is a pipeline into it. An attribute that is
frozen is cut off as a whole, one that is not has all the links it was declared with, and one that
has links is open. -/
theorem freezing_whole (hc : c.Registered) (hr : r.Within c good c.Provides) (hs : good s)
    (hlink : ((b.link r).run.run s).1 = .ok n) (hexpand : n.expandStars = .ok e)
    (hresolve : e.resolveReferences = .ok m) {order : List Nat}
    (hforward : (m.setOrder order).Forward) (hfreeze : (m.setOrder order).freezePipelines = .ok f)
    {i : Nat} {d : Declaration} (hd : f.declaration? i = some d) :
    (∀ (k : Nat) (o : Output), d.outputs[k]? = some o → ∀ p a,
      (p, a) ∈ o.fedBy ↔ ∃ slot, d.slot? p a = some slot ∧ k ∈ slot.feeds) ∧
    ∀ p a slot, d.slot? p a = some slot →
      (∀ type, slot.frozen = some type → d.Cut f.types (p, a) slot type) ∧
      (slot.frozen = none → slot.feeds = d.formalFeeds (p, a)) ∧
      (slot.feeds ≠ [] → f.Open slot) := by
  have hm := (wellResolved_of_link hc hr hs hlink hexpand hresolve).setOrder order
  have hf := hm.prepared hforward hfreeze
  obtain ⟨d₀, hfresh, hfrozen⟩ :=
    Network.exists_fresh_of_freezePipelines hm.types hforward hm.fresh hfreeze hd
  have hout : d₀.HasOutputs :=
    (hm.hasOutputs.of_bare (Network.bare_freezePipelines hfreeze) i d hd).of_bare
      hfrozen.bare.symm
  refine ⟨fun k o ho p a => ?_, fun p a slot hslot => ⟨fun type htype => ?_, fun hnone => ?_,
    fun hfeeds => ?_⟩⟩
  · rw [(hf.linked i d hd).fedBy k o ho p a, Declaration.mem_feedsAt]
  · exact hfresh.cut_of_frozen hf.types hout hfrozen
      (fun _ _ ht => hf.outputs.of_freezing hf.types ht) hslot htype
  · exact hfresh.feeds_of_frozen_eq_none hfrozen hslot hnone
  · exact hf.open_of_feeds (Network.slot?_eq_some.2 ⟨d, hd, hslot⟩ : f.slot? ⟨i, p, a⟩ = some slot)
      hfeeds

end BlockDraft

/-! ### Two pairs

A number freezes the one pair, although the other half of it comes from the block. The other pair
takes both its halves from the block. -/

/-- The block with a number and two pairs. -/
def halves : BlockDraft :=
  { BlockDraft.new "halves" with
    declarations := [
      DeclarationDraft.new "source" (.component "Source"),
      (DeclarationDraft.new "p" (.component "Pair")).param "in"
        [("left", "@source.out"), ("right", "@in.x")],
      (DeclarationDraft.new "q" (.component "Pair")).param "in"
        [("left", "@in.x"), ("right", "@in.y")]] }
    |>.param "in" ["x", "y"]

/-- The linked block. -/
def halvesLinked : Except Fault Network :=
  ((halves.link forkCatalog.resolver).run.run ()).1

/-- The half from the block is cut off with the other one, and the second pair is left open. -/
theorem BlockDraft.freezing_whole_halves : ∃ n e m f p q right left type,
    ((halves.link forkCatalog.resolver).run.run ()).1 = .ok n ∧ n.expandStars = .ok e ∧
      e.resolveReferences = .ok m ∧ (m.setOrder [0, 1, 2]).Forward ∧
        (m.setOrder [0, 1, 2]).freezePipelines = .ok f ∧ f.declaration? 1 = some p ∧
          f.declaration? 2 = some q ∧ p.slot? 1 1 = some right ∧
            right.binding = .reference (.input ⟨0, 0⟩) ∧ p.Cut f.types (1, 1) right type ∧
              q.slot? 1 0 = some left ∧ f.Open left := by
  have hrun : halvesLinked.toOption.any (fun n => n.expandStars.toOption.any fun e =>
      e.resolveReferences.toOption.any fun m => decide (m.setOrder [0, 1, 2]).Forward &&
        (m.setOrder [0, 1, 2]).freezePipelines.toOption.any fun f =>
          (f.declaration? 1).any fun p => (f.declaration? 2).any fun q =>
            (p.slot? 1 1).any fun right => (q.slot? 1 0).any fun left =>
              right.binding == .reference (.input ⟨0, 0⟩) && (right.frozen.isSome &&
                !left.feeds.isEmpty)) = true := by
    decide +kernel
  obtain ⟨n, hlink, hrun⟩ := toOption_any.1 hrun
  obtain ⟨e, hexpand, hrun⟩ := toOption_any.1 hrun
  obtain ⟨m, hresolve, hrun⟩ := toOption_any.1 hrun
  rw [Bool.and_eq_true, decide_eq_true_iff] at hrun
  obtain ⟨hforward, hrun⟩ := hrun
  obtain ⟨f, hfreeze, hrun⟩ := toOption_any.1 hrun
  obtain ⟨p, hp, hrun⟩ := (Option.any_eq_true _ _).1 hrun
  obtain ⟨q, hq, hrun⟩ := (Option.any_eq_true _ _).1 hrun
  obtain ⟨right, hright, hrun⟩ := (Option.any_eq_true _ _).1 hrun
  obtain ⟨left, hleft, hrun⟩ := (Option.any_eq_true _ _).1 hrun
  rw [Bool.and_eq_true, Bool.and_eq_true, beq_iff_eq, Option.isSome_iff_exists, Bool.not_eq_true',
    List.isEmpty_eq_false_iff] at hrun
  obtain ⟨hbinding, ⟨type, htype⟩, hfeeds⟩ := hrun
  have hwhole := fun i d hd => BlockDraft.freezing_whole serving_blendLibrary.1
    (forkCatalog.resolver_within _) trivial hlink hexpand hresolve hforward hfreeze
    (hd : f.declaration? i = some d)
  exact ⟨n, e, m, f, p, q, right, left, type, hlink, hexpand, hresolve, hforward, hfreeze, hp, hq,
    hright, hbinding, ((hwhole 1 p hp).2 1 1 right hright).1 type htype, hleft,
    ((hwhole 2 q hq).2 1 0 left hleft).2.2 hfeeds⟩

end Blockwork
