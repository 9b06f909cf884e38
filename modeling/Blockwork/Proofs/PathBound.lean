import Blockwork.Proofs.Circles
import Blockwork.Proofs.Provision

/-!
# The bound on paths

A pipeline leads from an attribute to outputs of its own declaration, and the attribute refers to
something executed before. So along a path the number of outputs that are executed so far only
grows, and no path is as long as `pathBound`. Going back over the pipelines of a prepared network
finds a type for every target (`exists_providedType`).
-/

namespace Blockwork

namespace Network

variable {n : Network} {i j : Nat}

/-- The number of outputs of a declaration. -/
def outputCount (n : Network) (i : Nat) : Nat :=
  ((n.declaration? i).map fun d => d.outputs.length).getD 0

/-- The number of outputs of the declarations executed before one. -/
def outputsBefore (n : Network) (i : Nat) : Nat :=
  ((n.order.takeWhile (· != i)).map n.outputCount).sum

theorem outputCount_pos {id : OutputId} {o : Output} (ho : n.output? id = some o) :
    0 < n.outputCount id.declaration := by
  obtain ⟨d, hd, ho⟩ := output?_eq_some.1 ho
  unfold outputCount
  rw [hd]
  exact Nat.zero_lt_of_lt (List.getElem?_eq_some_iff.1 ho).1

theorem outputsBefore_of_split {before after : List Nat} (h : n.order = before ++ i :: after)
    (hi : i ∉ before) : n.outputsBefore i = (before.map n.outputCount).sum := by
  unfold outputsBefore
  rw [h, takeWhile_bne_split hi]

theorem length_outputIds (n : Network) :
    n.outputIds.length = (n.positions.map n.outputCount).sum := by
  have hcounts : n.positions.map n.outputCount = n.declarations.map fun d => d.outputs.length := by
    refine List.ext_getElem (by simp [positions]) fun i hi _ => ?_
    have hlt : i < n.declarations.length := by simpa [positions] using hi
    simp [positions, outputCount, declaration?, hlt]
  rw [hcounts]
  unfold outputIds
  simp only [List.length_flatMap, List.length_map, List.length_range]
  have hfst := congrArg (List.map fun d : Declaration => d.outputs.length)
    (List.zipIdx_map_fst 0 n.declarations)
  rw [List.map_map] at hfst
  exact congrArg List.sum hfst

namespace Forward

/-- What a declaration depends on stands before it. -/
theorem exists_split (hn : n.Forward) (hi : i ∈ n.order) : ∃ before after,
    n.order = before ++ i :: after ∧ i ∉ before ∧
      ∀ j ∈ n.order, n.dependsOn i j = true → j ∈ before := by
  obtain ⟨hpair, hself⟩ := hn.executable.not_dependsOn fun _ => hn.perm.mem_iff.1
  obtain ⟨before, after, hsplit⟩ := List.append_of_mem hi
  have hnodup : n.order.Nodup := hn.perm.nodup_iff.2 List.nodup_range
  refine ⟨before, after, hsplit, fun hmem => ?_, fun j hj hij => ?_⟩
  · rw [hsplit] at hnodup
    exact (List.nodup_append.1 hnodup).2.2 i hmem i List.mem_cons_self rfl
  · rw [hsplit] at hpair hj
    rcases List.mem_append.1 hj with hj | hj
    · exact hj
    · rcases List.mem_cons.1 hj with rfl | hj
      · exact absurd hij (hself j hi)
      · exact absurd hij ((List.pairwise_cons.1 (List.pairwise_append.1 hpair).2.1).1 j hj)

/-- The outputs of what a declaration depends on are executed before it. -/
theorem outputsBefore_add_le (hn : n.Forward) (hi : i ∈ n.order) (hj : j ∈ n.order)
    (hij : n.dependsOn i j = true) : n.outputsBefore j + n.outputCount j ≤ n.outputsBefore i := by
  obtain ⟨before, after, hsplit, hnew, hbefore⟩ := hn.exists_split hi
  obtain ⟨first, rest, hfirst⟩ := List.append_of_mem (hbefore j hj hij)
  have hnodup : n.order.Nodup := hn.perm.nodup_iff.2 List.nodup_range
  have hsplit' : n.order = first ++ j :: (rest ++ i :: after) := by
    rw [hsplit, hfirst, List.append_assoc, List.cons_append]
  have hjnew : j ∉ first := fun hmem => by
    rw [hsplit'] at hnodup
    exact (List.nodup_append.1 hnodup).2.2 j hmem j List.mem_cons_self rfl
  rw [outputsBefore_of_split hsplit hnew, outputsBefore_of_split hsplit' hjnew, hfirst,
    List.map_append, List.sum_append, List.map_cons, List.sum_cons]
  omega

/-- There are no more outputs than those executed by the end of a declaration. -/
theorem outputsBefore_add_le_length (hn : n.Forward) (hi : i ∈ n.order) :
    n.outputsBefore i + n.outputCount i ≤ n.outputIds.length := by
  have hlength : n.outputIds.length = (n.order.map n.outputCount).sum := by
    rw [(hn.perm.map n.outputCount).sum_eq, length_outputIds]
  obtain ⟨before, after, hsplit, hnew, -⟩ := hn.exists_split hi
  rw [hlength, outputsBefore_of_split hsplit hnew, hsplit, List.map_append, List.sum_append,
    List.map_cons, List.sum_cons]
  omega

end Forward

/-! ## Going back -/

/-- A bound on the length of the paths that lead to a target. -/
def depth (n : Network) : Target → Nat
  | .input _ => 0
  | .output id => n.outputsBefore id.declaration + 1

theorem depth_lt_pathBound (hn : n.Forward) {t : Target} (ht : n.HasTarget t) :
    n.depth t < n.pathBound := by
  cases t with
  | input id => exact Nat.zero_lt_succ _
  | output id =>
    obtain ⟨type, htype⟩ := ht
    obtain ⟨o, ho, -⟩ := Option.map_eq_some_iff.1 htype
    obtain ⟨d, hd, -⟩ := output?_eq_some.1 ho
    have := outputCount_pos ho
    have := hn.outputsBefore_add_le_length (hn.mem_order hd)
    show n.outputsBefore id.declaration + 1 < n.outputIds.length + 1
    omega

/-- What an attribute refers to is not as deep as the outputs of its declaration. -/
theorem depth_lt (hn : n.Forward) {x : SlotId} {s : Slot} {t : Target} (hs : n.slot? x = some s)
    (ht : s.binding = .reference t) (htarget : n.HasTarget t) (k : Nat) :
    n.depth t < n.depth (.output ⟨x.declaration, k⟩) := by
  obtain ⟨d, hd, hs⟩ := slot?_eq_some.1 hs
  cases t with
  | input id => exact Nat.zero_lt_succ _
  | output id =>
    obtain ⟨type, htype⟩ := htarget
    obtain ⟨o, ho, -⟩ := Option.map_eq_some_iff.1 htype
    obtain ⟨e, he, -⟩ := output?_eq_some.1 ho
    have hdep : n.dependsOn x.declaration id.declaration = true :=
      dependsOn_iff.2 ⟨d, hd, Declaration.mem_referredTo.2 ⟨_, _, s, id.output, hs, ht⟩⟩
    have := outputCount_pos ho
    have := hn.outputsBefore_add_le (hn.mem_order hd) (hn.mem_order he) hdep
    show n.outputsBefore id.declaration + 1 < n.outputsBefore x.declaration + 1
    omega

/-- In a prepared network a type is found for every target. -/
theorem exists_providedWithin (hn : n.Prepared) :
    ∀ {bound : Nat} {t : Target}, n.HasTarget t → n.depth t < bound →
      ∃ type, n.providedWithin bound t = .ok type
  | 0, _, _, h => absurd h (Nat.not_lt_zero _)
  | bound + 1, .input id, ht, _ => by
    obtain ⟨type, htype⟩ := ht
    obtain ⟨i, hi, -⟩ := Option.map_eq_some_iff.1 htype
    unfold providedWithin
    exact ⟨i.type, bind_eq_ok.2 ⟨i, require_eq_ok.2 hi, rfl⟩⟩
  | bound + 1, .output id, ht, h => by
    obtain ⟨type, htype⟩ := ht
    obtain ⟨o, ho, -⟩ := Option.map_eq_some_iff.1 htype
    obtain ⟨d, hd, ho'⟩ := output?_eq_some.1 ho
    obtain ⟨result, hresult, -⟩ : ∃ result,
        o.fedBy.foldlM (n.widenCarried bound d) none = .ok result ∧ ∀ x ∈ [], x ∈ o.fedBy := by
      refine exists_of_foldlM_steps (fun rest _ => ∀ x ∈ rest, x ∈ o.fedBy)
        (fun x rest result hrest => ?_) fun _ hx => hx
      have hfeeds := (hn.mem_fedBy ho).1 (hrest x List.mem_cons_self)
      obtain ⟨s, t, hs, ht, -⟩ := hn.isOpen_of_feeds hfeeds
      have htarget := hn.hasTarget _ s t hs ht
      have hdepth := depth_lt hn.forward hs ht htarget id.output
      obtain ⟨type, htype⟩ := exists_providedWithin hn htarget
        (Nat.lt_of_lt_of_le hdepth (Nat.le_of_lt_succ h))
      have hcarried : n.carriedWithin bound s = .ok type := by
        unfold carriedWithin
        rw [ht]
        exact htype
      rw [slot?_of_declaration? hd] at hs
      exact ⟨_, bind_eq_ok.2 ⟨s, require_eq_ok.2 hs, bind_eq_ok.2 ⟨type, hcarried, rfl⟩⟩,
        fun y hy => hrest y (List.mem_cons_of_mem x hy)⟩
    exact ⟨_, providedWithin_output_eq_ok.2 ⟨d, o, result, hd, ho', hresult, rfl⟩⟩

theorem exists_providedType (hn : n.Prepared) {t : Target} (ht : n.HasTarget t) :
    ∃ type, n.providedType t = .ok type :=
  exists_providedWithin hn ht (depth_lt_pathBound hn.forward ht)

/-! ## Going on -/

/-- A bound on the length of the paths that start at a target. -/
def height (n : Network) : Target → Nat
  | .input _ => n.outputIds.length
  | .output id =>
    n.outputIds.length - (n.outputsBefore id.declaration + n.outputCount id.declaration)

theorem height_lt_pathBound (n : Network) (t : Target) : n.height t < n.pathBound := by
  cases t with
  | input id => exact Nat.lt_succ_self _
  | output id => exact Nat.lt_succ_of_le (Nat.sub_le ..)

/-- The outputs of a declaration are not as high as what its attributes refer to. -/
theorem height_lt (hn : n.Forward) {x : SlotId} {s : Slot} {t : Target} {id : OutputId}
    {o : Output} (hs : n.slot? x = some s) (ht : s.binding = .reference t)
    (htarget : n.HasTarget t) (hid : id.declaration = x.declaration)
    (ho : n.output? id = some o) : n.height (.output id) < n.height t := by
  obtain ⟨d, hd, hs⟩ := slot?_eq_some.1 hs
  have hpos := outputCount_pos ho
  have hlength := hn.outputsBefore_add_le_length (hn.mem_order hd)
  rw [hid] at hpos
  show n.outputIds.length - (n.outputsBefore id.declaration + n.outputCount id.declaration) < _
  rw [hid]
  cases t with
  | input =>
    show _ < n.outputIds.length
    omega
  | output id' =>
    obtain ⟨type, htype⟩ := htarget
    obtain ⟨o', ho', -⟩ := Option.map_eq_some_iff.1 htype
    obtain ⟨e, he, -⟩ := output?_eq_some.1 ho'
    have hdep : n.dependsOn x.declaration id'.declaration = true :=
      dependsOn_iff.2 ⟨d, hd, Declaration.mem_referredTo.2 ⟨_, _, s, id'.output, hs, ht⟩⟩
    have := hn.outputsBefore_add_le (hn.mem_order hd) (hn.mem_order he) hdep
    show _ < n.outputIds.length - (n.outputsBefore id'.declaration + n.outputCount id'.declaration)
    omega

end Network

end Blockwork
