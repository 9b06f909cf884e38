import Blockwork.Assembly
import Blockwork.Proofs.ExecutionOrder
import Blockwork.Proofs.Resolving

/-!
# The stages of a compilation

Behind every plan of an assembly there is a `Compilation`: the linked network, the completed
one, and the networks between the stages. From the sorting on the network is forward and its
wiring does not change any more.

Freezing and checking go through the attributes of all declarations. Both are runs over the
declarations in their order, with a run over the attributes of one declaration inside
(`foldlM_slotIds`).
-/

namespace Blockwork

/-! ## Compiling with a resolver -/

section Resolving

variable {σ : Type}

/-- A plan comes from a network that is linked and completed. -/
theorem BlockDraft.ensures_compile {good : σ → Prop} {P : Network → Prop} {r : Resolver σ}
    {b : BlockDraft} (hlink : Ensures good (b.link r) P) :
    Ensures good (b.compile r) fun p => ∃ n m, P n ∧ n.complete = .ok m ∧ m.plan = p :=
  hlink.bind fun n hn =>
    (Ensures.lift (P := fun m => n.complete = .ok m) fun _ hm => hm).bind fun m hm =>
      .pure ⟨n, m, hn, hm, rfl⟩

/-- An assembly has the plan of its draft. -/
theorem Assembly.compile_eq_ok {r : Resolver σ} {a : Assembly} {s : σ} {p : Plan}
    (h : ((a.compile r).run s).1.1 = .ok p) :
    ((a.draft.compile r).run.run s).1 = .ok p := by
  unfold compile at h
  split at h
  · rw [StateT.run_bind] at h
    exact h
  · exact nomatch (h : (.error _ : Except Fault Plan) = .ok p)

/-- An open assembly is compiled like its draft, and closed. -/
theorem Assembly.run_compile (r : Resolver σ) {a : Assembly} (hgrowing : a.state = .growing)
    (s : σ) : (a.compile r).run s =
      ((((a.draft.compile r).run.run s).1,
        { a with state := stateAfter ((a.draft.compile r).run.run s).1 }),
          ((a.draft.compile r).run.run s).2) := by
  unfold compile
  rw [if_pos hgrowing]
  rfl

end Resolving

/-! ## The stages -/

namespace Network

variable {n m c : Network}

/-- What the stages that take `n` to `m` find out, and the networks in between. -/
structure Compilation (n m : Network) where
  expanded : Network
  resolved : Network
  order : List Nat
  frozen : Network
  multiplicities : List Multiplicity
  typings : List (InputId × InputTyping)
  outputTypes : List ClassType
  expand_eq : n.expandStars = .ok expanded
  resolve_eq : expanded.resolveReferences = .ok resolved
  sort_eq : resolved.sort = .ok order
  freeze_eq : (resolved.setOrder order).freezePipelines = .ok frozen
  multiplicities_eq : frozen.inferMultiplicities = .ok multiplicities
  inputs_eq : (frozen.setMultiplicities multiplicities).inferInputs = .ok typings
  outputs_eq : ((frozen.setMultiplicities multiplicities).setInputs typings).inferOutputTypes =
    .ok outputTypes
  check_eq : (((frozen.setMultiplicities multiplicities).setInputs typings).setOutputTypes
    outputTypes).checkTypes = .ok m

theorem exists_compilation (h : n.complete = .ok m) : Nonempty (Compilation n m) := by
  unfold complete at h
  simp only [bind_eq_ok] at h
  obtain ⟨_, h1, _, h2, _, h3, _, h4, _, h5, _, h6, _, h7, h8⟩ := h
  exact ⟨⟨_, _, _, _, _, _, _, h1, h2, h3, h4, h5, h6, h7, h8⟩⟩

/-! ## Runs over all attributes -/

/-- The positions of the attributes of one declaration. -/
def slotIdsAt (n : Network) (d : Nat) : List SlotId :=
  match n.declaration? d with
  | none => []
  | some decl => decl.slots.map fun x => ⟨d, x.1.1, x.1.2⟩

theorem slotIds_eq (n : Network) : n.slotIds = n.order.flatMap n.slotIdsAt := by
  unfold slotIds slots slotIdsAt
  rw [List.map_flatMap]
  refine congrArg (fun f => n.order.flatMap f) (funext fun d => ?_)
  cases n.declaration? d <;> simp

theorem slotIdsAt_congr {d : Nat} (h : c.declaration? d = n.declaration? d) :
    c.slotIdsAt d = n.slotIdsAt d := by
  unfold slotIdsAt
  rw [h]

theorem mem_slotIdsAt {d : Nat} {id : SlotId} :
    id ∈ n.slotIdsAt d ↔ id.declaration = d ∧ ∃ s, n.slot? id = some s := by
  unfold slotIdsAt
  constructor
  · intro h
    split at h
    · simp at h
    · rename_i decl hd
      obtain ⟨⟨⟨p, a⟩, s⟩, hs, rfl⟩ := List.mem_map.1 h
      exact ⟨rfl, s, slot?_eq_some.2 ⟨decl, hd, Declaration.mem_slots.1 hs⟩⟩
  · rintro ⟨rfl, s, hs⟩
    obtain ⟨decl, hd, hs⟩ := slot?_eq_some.1 hs
    rw [hd]
    exact List.mem_map.2 ⟨((id.param, id.attr), s), Declaration.mem_slots.2 hs, rfl⟩

theorem slotIdsAt_of_declaration? {d : Nat} {decl : Declaration}
    (h : n.declaration? d = some decl) :
    n.slotIdsAt d = (decl.slots.map Prod.fst).map fun x => ⟨d, x.1, x.2⟩ := by
  unfold slotIdsAt
  simp [h]

/-- Whatever the order, only attributes that are there are listed. -/
theorem slot?_of_mem_slots {id : SlotId} {s : Slot} (h : (id, s) ∈ n.slots) :
    n.slot? id = some s := by
  obtain ⟨i, -, h⟩ := List.mem_flatMap.1 h
  cases hd : n.declaration? i with
  | none => simp [hd] at h
  | some d =>
    rw [hd] at h
    obtain ⟨⟨⟨p, a⟩, s'⟩, hs, heq⟩ := List.mem_map.1 h
    obtain ⟨rfl, rfl⟩ := Prod.mk.inj heq
    exact slot?_eq_some.2 ⟨d, hd, Declaration.mem_slots.1 hs⟩

namespace Forward

theorem mem_slots (hn : n.Forward) {id : SlotId} {s : Slot} :
    (id, s) ∈ n.slots ↔ n.slot? id = some s := by
  constructor
  · exact slot?_of_mem_slots
  · intro h
    obtain ⟨d, hd, hs⟩ := slot?_eq_some.1 h
    refine List.mem_flatMap.2 ⟨id.declaration, hn.mem_order hd, ?_⟩
    rw [hd]
    exact List.mem_map.2 ⟨((id.param, id.attr), s), Declaration.mem_slots.2 hs, rfl⟩

theorem mem_slotIds (hn : n.Forward) {id : SlotId} :
    id ∈ n.slotIds ↔ ∃ s, n.slot? id = some s := by
  simp [slotIds, hn.mem_slots]

/-- The positions of attributes are listed once each. -/
theorem nodup_slotIds (hn : n.Forward) : n.slotIds.Nodup := by
  have hnodup : n.order.Nodup := hn.perm.nodup_iff.2 List.nodup_range
  rw [slotIds_eq, List.nodup_flatMap]
  refine ⟨fun i _ => ?_, hnodup.imp fun {i j} hij id hi hj => hij ?_⟩
  · cases hd : n.declaration? i with
    | none => simp [slotIdsAt, hd]
    | some d =>
      rw [slotIdsAt_of_declaration? hd]
      exact d.nodup_positions.map fun x y hxy => by
        obtain ⟨-, hp, ha⟩ := SlotId.mk.inj hxy
        exact Prod.ext hp ha
  · exact (mem_slotIdsAt.1 hi).1.symm.trans (mem_slotIdsAt.1 hj).1

/-- The attributes of what a declaration depends on come before its own. -/
theorem pairwise_slotIds (hn : n.Forward) :
    n.slotIds.Pairwise fun x y => ¬n.dependsOn x.declaration y.declaration = true := by
  obtain ⟨hpair, hself⟩ := hn.executable.not_dependsOn fun _ => hn.perm.mem_iff.1
  rw [slotIds_eq, List.pairwise_flatMap]
  refine ⟨fun i hi => List.pairwise_of_forall_mem_list fun x hx y hy => ?_,
    hpair.imp fun {i j} hij x hx y hy => ?_⟩
  · rw [(mem_slotIdsAt.1 hx).1, (mem_slotIdsAt.1 hy).1]
    exact hself i hi
  · rwa [(mem_slotIdsAt.1 hx).1, (mem_slotIdsAt.1 hy).1]

end Forward

theorem foldlM_slotIds (n : Network) (step : Network → SlotId → Except Fault Network) :
    n.slotIds.foldlM step n =
      n.order.foldlM (fun c d => (n.slotIdsAt d).foldlM step c) n := by
  rw [slotIds_eq, foldlM_flatMap]

/-! ## Changing one declaration -/

theorem modifyDeclaration_modifyDeclaration (n : Network) (d : Nat)
    (f g : Declaration → Declaration) :
    (n.modifyDeclaration d f).modifyDeclaration d g = n.modifyDeclaration d fun x => g (f x) := by
  unfold modifyDeclaration
  simp only [List.modify_modify_eq]
  rfl

theorem modifyDeclaration_self {d : Nat} {decl : Declaration} (h : n.declaration? d = some decl) :
    (n.modifyDeclaration d fun _ => decl) = n := by
  unfold modifyDeclaration
  obtain ⟨hd, hget⟩ := List.getElem?_eq_some_iff.1 h
  have : n.declarations.modify d (fun _ => decl) = n.declarations := by
    refine List.ext_getElem? fun i => ?_
    rw [List.getElem?_modify]
    by_cases hi : d = i
    · subst hi
      simp [hd, hget]
    · simp [hi]
  rw [this]

/-- A run over the attributes of one declaration that only changes this declaration. `Q` says
what holds of it with the attributes still to come. -/
theorem slotIdsAt_invariant {step : Network → SlotId → Except Fault Network} {i : Nat}
    {d : Declaration} (Q : List (Nat × Nat) → Declaration → Prop)
    (hd : c.declaration? i = some d) (h₀ : Q (d.slots.map Prod.fst) d)
    (keeps : ∀ x l e m, Q (x :: l) e →
      step (c.modifyDeclaration i fun _ => e) ⟨i, x.1, x.2⟩ = .ok m →
        ∃ e', m = (c.modifyDeclaration i fun _ => e') ∧ Q l e')
    (h : (c.slotIdsAt i).foldlM step c = .ok m) :
    ∃ e, m = (c.modifyDeclaration i fun _ => e) ∧ Q [] e := by
  obtain ⟨l, hl, e, hm, he⟩ := foldlM_invariant
    (fun ids (m : Network) => ∃ l : List (Nat × Nat),
      ids = l.map (fun x => SlotId.mk i x.1 x.2) ∧
        ∃ e, m = (c.modifyDeclaration i fun _ => e) ∧ Q l e)
    (fun id ids m m' ⟨l, hl, e, hm, he⟩ hok => by
      cases l with
      | nil => simp at hl
      | cons x l =>
        rw [List.map_cons, List.cons.injEq] at hl
        obtain ⟨rfl, hl⟩ := hl
        subst hm
        exact ⟨l, hl, keeps x l e m' he hok⟩)
    ⟨_, slotIdsAt_of_declaration? hd, d, (modifyDeclaration_self hd).symm, h₀⟩ h
  obtain rfl : l = [] := by simpa using hl.symm
  exact ⟨e, hm, he⟩

theorem targetType?_modifyDeclaration {t : Target} {j : Nat}
    (h : ∀ id, t = .output id → j ≠ id.declaration) (f : Declaration → Declaration) :
    (n.modifyDeclaration j f).targetType? t = n.targetType? t := by
  cases t with
  | input id => rfl
  | output id =>
    unfold targetType? output?
    simp only [declaration?_modifyDeclaration_of_ne _ (h id rfl)]

theorem setInputs_eq (n : Network) (ts : List (InputId × InputTyping)) :
    n.setInputs ts = { n with params := (n.setInputs ts).params } := by
  unfold setInputs
  induction ts generalizing n with
  | nil => rfl
  | cons t ts ih =>
    rw [List.foldl_cons, ih]
    rfl

/-- An output with a type of the list is wired as before, and has the type at its position. -/
theorem getElem?_setOutputTypes {ts : List ClassType} {o : Nat} {b : BlockOutput}
    (hb : (n.setOutputTypes ts).outputs[o]? = some b) :
    ∃ b₀ t, n.outputs[o]? = some b₀ ∧ ts[o]? = some t ∧ b = { b₀ with type := some t } := by
  unfold setOutputTypes at hb
  simp only [List.getElem?_zipWith] at hb
  split at hb
  · rename_i b₀ t hb₀ ht
    exact ⟨b₀, t, hb₀, ht, (Option.some.inj hb).symm⟩
  · cases hb

end Network

end Blockwork
