import Blockwork.Proofs.Compilation
import Blockwork.Proofs.Frozen

/-!
# Outputs of declarations

From linking on a declaration has an output for each output of what it uses, and no stage of
compilation takes one away. So the outputs that a sound interface declares its attributes to be
pipelines into are there (`Declaration.Fresh.exists_output`).
-/

namespace Blockwork

/-- The declaration has an output for each output of what it uses. -/
def Declaration.HasOutputs (d : Declaration) : Prop :=
  d.outputs.length = d.specification.interface.outputs.length

/-- All declarations have their outputs. -/
def Network.HasOutputs (n : Network) : Prop :=
  ∀ i d, n.declaration? i = some d → d.HasOutputs

namespace Declaration

variable {d d' : Declaration}

theorem hasOutputs_indexPipelines : d.indexPipelines.HasOutputs ↔ d.HasOutputs := by
  simp [HasOutputs, indexPipelines]

theorem HasOutputs.of_bare (hd : d.HasOutputs) (h : d'.bare = d.bare) : d'.HasOutputs := by
  have hlength : d'.outputs.length = d.outputs.length := by
    simpa [bare] using congrArg (fun e : Declaration => e.outputs.length) h
  have hspec : d'.specification = d.specification := (congrArg Declaration.specification h :)
  unfold HasOutputs
  rw [hlength, hspec]
  exact hd

/-- An output that an attribute of a fresh declaration is a pipeline into is there. -/
theorem Fresh.exists_output {h : Hierarchy} (hd : d.Fresh h) (hout : d.HasOutputs) {p a k : Nat}
    {s : Slot} (hs : d.slot? p a = some s) (hk : k ∈ s.feeds) :
    ∃ o, d.outputs[k]? = some o := by
  obtain ⟨_, _, fa, -, -, -, hfresh, hsound⟩ := hd.slot hs
  obtain ⟨f, hf, -⟩ := hsound.pipeline k (hfresh.feeds ▸ hk)
  have hlt : k < d.outputs.length := hout ▸ (List.getElem?_eq_some_iff.1 hf).1
  exact ⟨_, List.getElem?_eq_getElem hlt⟩

end Declaration

/-! ## Linking -/

theorem DeclarationDraft.hasOutputs_link {h : Hierarchy} {d : DeclarationDraft}
    {s : Specification} {location : Location} {decl : Declaration}
    (hok : d.link h s location = .ok decl) : decl.HasOutputs := by
  unfold link at hok
  obtain ⟨parameters, -, hok⟩ := bind_eq_ok.1 hok
  obtain rfl := pure_eq_ok.1 hok
  rw [Declaration.hasOutputs_indexPipelines]
  exact List.length_map _

/-- Linking gives all declarations their outputs, whatever resolves their names. -/
theorem BlockDraft.ensures_hasOutputs {σ : Type} (r : Resolver σ) (b : BlockDraft) :
    Ensures (fun _ => True) (b.link r) Network.HasOutputs := by
  refine (Ensures.mapM (Q := Declaration.HasOutputs) (fun d => ?_) b.declarations).bind
    fun ds hds => .pure fun i d hd => hds d (List.mem_of_getElem? hd)
  exact Ensures.trivial.bind fun _ _ => .lift fun _ hok => DeclarationDraft.hasOutputs_link hok

/-! ## The stages -/

namespace Network

variable {n m : Network}

theorem HasOutputs.expandStars (hn : n.HasOutputs) (hok : n.expandStars = .ok m) :
    m.HasOutputs := by
  unfold Network.expandStars at hok
  obtain ⟨declarations, hds, hok⟩ := bind_eq_ok.1 hok
  obtain rfl := pure_eq_ok.1 hok
  intro i d hd
  obtain ⟨d₀, hd₀, hexpand⟩ := getElem?_of_mapM_eq_ok hds hd
  unfold expandDeclaration at hexpand
  split at hexpand
  · exact Except.ok.inj hexpand ▸ hn i d₀ hd₀
  · obtain ⟨parameters, -, hexpand⟩ := bind_eq_ok.1 hexpand
    obtain rfl := pure_eq_ok.1 hexpand
    exact Declaration.hasOutputs_indexPipelines.2 (hn i d₀ hd₀)

theorem HasOutputs.resolveReferences (hn : n.HasOutputs) (hok : n.resolveReferences = .ok m) :
    m.HasOutputs := by
  unfold Network.resolveReferences at hok
  obtain ⟨c, hc, hok⟩ := bind_eq_ok.1 hok
  obtain ⟨outputs, -, hok⟩ := bind_eq_ok.1 hok
  obtain rfl := pure_eq_ok.1 hok
  suffices c.HasOutputs from this
  refine foldlM_invariant (fun _ (c : Network) => c.HasOutputs) (fun i _ c c' hc hstep => ?_) hn hc
  unfold bindAt at hstep
  obtain ⟨d, hd, hstep⟩ := bind_eq_ok.1 hstep
  obtain ⟨d', hbind, hstep⟩ := bind_eq_ok.1 hstep
  obtain rfl := pure_eq_ok.1 hstep
  intro j e he
  rw [declaration?_modifyDeclaration] at he
  split at he
  · obtain ⟨_, -, rfl⟩ := Option.map_eq_some_iff.1 he
    have hd := hc i d (require_eq_ok.1 hd)
    rw [(getElem?_bindDeclaration hbind).1]
    exact hd
  · exact hc j e he

theorem HasOutputs.of_bare (hn : n.HasOutputs) (h : m.bare = n.bare) : m.HasOutputs := by
  intro i d' hd'
  obtain ⟨d, hd, hbare⟩ := exists_declaration?_of_bare h hd'
  exact (hn i d hd).of_bare hbare

end Network

end Blockwork
