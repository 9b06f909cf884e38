import Blockwork.Proofs.DeclaredOutputs
import Blockwork.Proofs.Occurrence
import Mathlib.Algebra.Order.BigOperators.Group.List
import Mathlib.Data.List.MinMax

/-!
# How many occurrences there are

Occurrences are counted in words, and no declaration has more of them than parameters. A star
reference multiplies its parameter by the outputs of a declaration at most, so the parameters of a
linked network bound those of the expanded one (`Network.CopiesFit.expandStars`), and no later stage
adds any. Where a word can tell their number, all occurrences can be counted
(`Network.ParametersFit.counted`).
-/

namespace Blockwork

namespace Network

variable {n m : Network}

/-- The parameters of each declaration are not too many for a word. -/
def ParametersFit (n : Network) : Prop :=
  ∀ i d, n.declaration? i = some d → d.parameters.length < 2 ^ 32

/-- They are not, even if each of them is copied for every output of a declaration. -/
def CopiesFit (n : Network) : Prop :=
  ∀ d ∈ n.declarations, ∀ e ∈ n.declarations,
    d.parameters.length * max 1 e.outputs.length < 2 ^ 32

/-- What fits into words can be counted. -/
theorem ParametersFit.counted (h : n.ParametersFit) : n.Counted := fun d hd i _ _ => by
  obtain ⟨j, hj⟩ := List.getElem?_of_mem hd
  calc referring (occurrencesOf d i)
    _ ≤ (occurrencesOf d i).length := referring_le_length _
    _ ≤ d.parameters.length := List.length_filter_le _ _
    _ < 2 ^ 32 := h j d hj

/-! ## The stages -/

/-- A parameter is replaced by one or by a copy for each output of a declaration at most. -/
theorem length_expandParameter {d : Declaration} {p : Parameter} {ps : List Parameter}
    (h : n.expandParameter d p = .ok ps) :
    ps.length ≤ 1 ∨ ∃ e ∈ n.declarations, ps.length ≤ e.outputs.length := by
  unfold expandParameter at h
  split at h
  · exact Or.inl (Except.ok.inj h ▸ Nat.le_refl 1)
  · split at h
    · obtain ⟨references, hreferences, h⟩ := bind_eq_ok.1 h
      obtain rfl := pure_eq_ok.1 h
      unfold starReferences at hreferences
      split at hreferences
      · cases hreferences
      · split at hreferences
        · cases hreferences
        · rename_i e he
          obtain rfl := Except.ok.inj hreferences
          refine Or.inr ⟨e, List.mem_reverse.1 (List.mem_of_find?_eq_some he), ?_⟩
          rw [List.length_map, Declaration.referencesTo, List.length_map]
          exact List.length_filter_le _ _
    · cases h

theorem CopiesFit.expandDeclaration (h : n.CopiesFit) {d d' : Declaration}
    (hd : d ∈ n.declarations) (hok : n.expandDeclaration d = .ok d') :
    d'.parameters.length < 2 ^ 32 := by
  unfold Network.expandDeclaration at hok
  split at hok
  · obtain rfl := Except.ok.inj hok
    exact (Nat.le_mul_of_pos_right _ (by omega)).trans_lt (h d hd d hd)
  · obtain ⟨groups, hgroups, hok⟩ := bind_eq_ok.1 hok
    obtain rfl := pure_eq_ok.1 hok
    -- The declaration with the most outputs bounds the copies of every parameter.
    obtain ⟨e, he⟩ : ∃ e, e ∈ n.declarations.argmax fun e => e.outputs.length :=
      Option.ne_none_iff_exists'.1 fun h => List.ne_nil_of_mem hd (List.argmax_eq_none.1 h)
    have hcopies : ∀ k ∈ groups.map List.length, k ≤ max 1 e.outputs.length := by
      intro k hk
      obtain ⟨ps, hps, rfl⟩ := List.mem_map.1 hk
      obtain ⟨p, -, hp⟩ := mem_of_mapM_eq_ok hgroups hps
      rcases length_expandParameter hp with hone | ⟨x, hx, hle⟩
      · exact hone.trans (Nat.le_max_left 1 _)
      · exact hle.trans ((List.le_of_mem_argmax hx he).trans (Nat.le_max_right 1 _))
    have hlength : groups.length = d.parameters.length :=
      (forall₂_of_mapM_eq_ok hgroups).length_eq.symm
    calc groups.flatten.length
      _ = (groups.map List.length).sum := List.length_flatten
      _ ≤ (groups.map List.length).length • max 1 e.outputs.length :=
        List.sum_le_card_nsmul _ _ hcopies
      _ = d.parameters.length * max 1 e.outputs.length := by
        rw [List.length_map, hlength, Nat.nsmul_eq_mul]
      _ < 2 ^ 32 := h d hd e (List.argmax_mem he)

theorem CopiesFit.expandStars (h : n.CopiesFit) (hok : n.expandStars = .ok m) :
    m.ParametersFit := by
  unfold Network.expandStars at hok
  obtain ⟨declarations, hds, hok⟩ := bind_eq_ok.1 hok
  obtain rfl := pure_eq_ok.1 hok
  intro i d hd
  obtain ⟨d₀, hd₀, hexpand⟩ := getElem?_of_mapM_eq_ok hds hd
  exact h.expandDeclaration (List.mem_of_getElem? hd₀) hexpand

theorem ParametersFit.resolveReferences (hn : n.ParametersFit)
    (hok : n.resolveReferences = .ok m) : m.ParametersFit := by
  unfold Network.resolveReferences at hok
  obtain ⟨c, hc, hok⟩ := bind_eq_ok.1 hok
  obtain ⟨outputs, -, hok⟩ := bind_eq_ok.1 hok
  obtain rfl := pure_eq_ok.1 hok
  suffices c.ParametersFit from this
  refine foldlM_invariant (fun _ (c : Network) => c.ParametersFit)
    (fun i _ c c' hc hstep => ?_) hn hc
  unfold bindAt at hstep
  obtain ⟨d, hd, hstep⟩ := bind_eq_ok.1 hstep
  obtain ⟨d', hbind, hstep⟩ := bind_eq_ok.1 hstep
  obtain rfl := pure_eq_ok.1 hstep
  intro j e he
  rw [declaration?_modifyDeclaration] at he
  split at he
  · obtain ⟨_, -, rfl⟩ := Option.map_eq_some_iff.1 he
    rw [← (forall₂_bindDeclaration hbind).length_eq]
    exact hc i d (require_eq_ok.1 hd)
  · exact hc j e he

theorem ParametersFit.of_bare (hn : n.ParametersFit) (h : m.bare = n.bare) :
    m.ParametersFit := by
  intro i d' hd'
  obtain ⟨d, hd, hbare⟩ := exists_declaration?_of_bare h hd'
  have hlength : d'.parameters.length = d.parameters.length := by
    simpa [Declaration.bare] using congrArg (fun e : Declaration => e.parameters.length) hbare
  exact hlength ▸ hn i d hd

end Network

end Blockwork
