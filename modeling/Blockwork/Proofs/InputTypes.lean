import Blockwork.Proofs.Paths
import Blockwork.Proofs.ReducedTypes

/-!
# Types of the inputs

The typing of an input is found by going through everything that what is given for it flows to. Its
type is the widest one that all attributes met hold (`inferInput_isMeet`), and the outputs of the
block it is a pipeline into are listed as often as there are paths to them
(`encard_delivers_inferInput`). So both are read off the wiring, whatever the order of the visit.
-/

namespace Blockwork

/-- The output of the block that refers, if it is one. -/
def Referrer.blockOutput? : Referrer → Option Nat
  | .blockOutput o => some o
  | .slot _ => none

@[simp] theorem Referrer.blockOutput?_eq_some {r : Referrer} {o : Nat} :
    r.blockOutput? = some o ↔ r = .blockOutput o := by
  cases r <;> simp [blockOutput?]

namespace Network

variable {n m : Network} {input : InputId} {x y : InputTyping} {S : ClassType → Prop}

/-- An attribute that what is given for the input flows to has the type. -/
def Requires (n : Network) (input : InputId) (type : ClassType) : Prop :=
  ∃ id s t, n.slot? id = some s ∧ s.binding = .reference t ∧ n.Carries input t ∧ s.type = type

/-- The path leads from the input to what the output of the block is wired to. -/
def Delivers (n : Network) (input : InputId) (o : Nat) (path : List (SlotId × Nat)) : Prop :=
  ∃ t, n.wired? o = some t ∧ n.Path (.input input) path t

theorem requires_congr (h : m.declarations = n.declarations) : m.Requires = n.Requires := by
  funext input type
  unfold Requires
  rw [slot?_congr h, carries_congr h]

/-! ## Going through the referrers -/

/-- One of the referrers is an attribute of the type. -/
def SlotAmong (n : Network) (rs : List Referrer) (type : ClassType) : Prop :=
  ∃ id s, .slot id ∈ rs ∧ n.slot? id = some s ∧ s.type = type

theorem isMeet_addReferrer (hn : n.Prepared) {r : Referrer} (hx : n.types.IsMeet S x.type)
    (h : n.addReferrer input x r = .ok y) :
    n.types.IsMeet (fun u => S u ∨ n.SlotAmong [r] u) y.type ∧
      y.pipelineOutputs = r.blockOutput?.toList ++ x.pipelineOutputs := by
  cases r with
  | blockOutput o =>
    obtain rfl := Except.ok.inj h
    exact ⟨hx.congr fun u => by simp [SlotAmong], rfl⟩
  | slot id =>
    unfold addReferrer at h
    obtain ⟨s, hs, h⟩ := bind_eq_ok.1 h
    have hs := require_eq_ok.1 hs
    split at h
    · rename_i type hmerge
      obtain rfl := pure_eq_ok.1 h
      refine ⟨(hx.merge hn.types (hn.slots id s hs) hmerge).congr fun u => ?_, rfl⟩
      simp [SlotAmong, hs, eq_comm]
    · simp [reject] at h

/-- Referrers one after the other add the types of the attributes among them and the outputs of the
block among them. -/
theorem isMeet_foldlM_addReferrer (hn : n.Prepared) :
    ∀ {rs : List Referrer} {x : InputTyping} {S : ClassType → Prop}, n.types.IsMeet S x.type →
      rs.foldlM (n.addReferrer input) x = .ok y →
        n.types.IsMeet (fun u => S u ∨ n.SlotAmong rs u) y.type ∧
          y.pipelineOutputs = (rs.filterMap Referrer.blockOutput?).reverse ++ x.pipelineOutputs
  | [], x, S, hx, h => by
    obtain rfl := pure_eq_ok.1 h
    exact ⟨hx.congr fun u => by simp [SlotAmong], rfl⟩
  | r :: rs, x, S, hx, h => by
    rw [List.foldlM_cons] at h
    obtain ⟨z, hz, h⟩ := bind_eq_ok.1 h
    obtain ⟨hmeet, houtputs⟩ := isMeet_addReferrer hn hx hz
    obtain ⟨hmeet', houtputs'⟩ := isMeet_foldlM_addReferrer hn hmeet h
    refine ⟨hmeet'.congr fun u => ?_, ?_⟩
    · simp only [SlotAmong, List.mem_cons, or_and_right, exists_or, List.not_mem_nil, or_false,
        or_assoc]
    · rw [houtputs', houtputs, List.filterMap_cons]
      cases r.blockOutput? <;> simp

/-! ## The typing of an input -/

variable {t : InputTyping}

/-- The typing of an input comes of a run over the walk from it, which meets the ends of all
paths. -/
theorem inferInput_eq_ok (hn : n.Prepared) (h : n.inferInput n.referrerTable input = .ok t) :
    ∃ x, ((n.walk n.pathBound (.input input)).map Prod.snd).foldlM (n.addReferrer input)
        ⟨ClassType.object, []⟩ = .ok x ∧
      t = { x with pipelineOutputs := x.pipelineOutputs.reverse } ∧
      ∀ l r, (l, r) ∈ n.walk n.pathBound (.input input) ↔
        ∃ u, n.Path (.input input) l u ∧ r ∈ n.referrers u := by
  unfold inferInput at h
  obtain ⟨x, hx, h⟩ := bind_eq_ok.1 h
  refine ⟨x, ?_, (pure_eq_ok.1 h).symm, fun l r => ?_⟩
  · rw [List.foldlM_map]
    exact foldlM_walk hx
  · rw [mem_walk hn.forward]
    exact and_iff_right_of_imp fun ⟨_, hl, _⟩ => length_lt_of_visit hn.forward hx hl

/-- The type of an input is the widest one that all attributes hold which what is given for it flows
to. -/
theorem inferInput_isMeet (hn : n.Prepared) (h : n.inferInput n.referrerTable input = .ok t) :
    n.types.IsMeet (n.Requires input) t.type := by
  obtain ⟨x, hx, rfl, hwalk⟩ := inferInput_eq_ok hn h
  have hobject : n.types.IsMeet (fun _ => False) ClassType.object :=
    (Hierarchy.IsMeet.object_iff hn.types fun _ => id).2 rfl
  refine (isMeet_foldlM_addReferrer hn hobject hx).1.congr fun u => ?_
  simp only [Requires, SlotAmong, List.mem_map, Prod.exists, exists_eq_right, hwalk,
    slot_mem_referrers hn.forward, false_or]
  constructor
  · rintro ⟨id, s, v, hs, hv, ⟨l, hl⟩, rfl⟩
    exact ⟨id, s, ⟨l, v, hl, s, hs, hv⟩, hs, rfl⟩
  · rintro ⟨id, s, ⟨l, v, hl, s', hs', hv⟩, hs, rfl⟩
    obtain rfl := Option.some.inj (hs.symm.trans hs')
    exact ⟨id, s, v, hs, hv, ⟨l, hl⟩, rfl⟩

/-- The number of elements of a list without duplicates. -/
theorem encard_of_nodup {α : Type} {s : Set α} {l : List α} (hl : l.Nodup)
    (hs : ∀ a, a ∈ s ↔ a ∈ l) : s.encard = l.length := by
  classical
  have heq : s = (l.toFinset : Set α) := by
    ext a
    simp [hs]
  rw [heq, Set.encard_coe_eq_coe_finsetCard, List.toFinset_card_of_nodup hl]

/-- An input lists an output of the block as often as there are paths to it. -/
theorem encard_delivers_inferInput (hn : n.Prepared)
    (h : n.inferInput n.referrerTable input = .ok t) (o : Nat) :
    {path | n.Delivers input o path}.encard = t.pipelineOutputs.count o := by
  obtain ⟨x, hx, rfl, hwalk⟩ := inferInput_eq_ok hn h
  have hobject : n.types.IsMeet (fun _ => False) ClassType.object :=
    (Hierarchy.IsMeet.object_iff hn.types fun _ => id).2 rfl
  have houtputs := (isMeet_foldlM_addReferrer hn hobject hx).2
  rw [List.append_nil] at houtputs
  -- The paths to the output are those that are met with it.
  have hnodup : (((n.walk n.pathBound (.input input)).filter (·.2 = .blockOutput o)).map
      Prod.fst).Nodup := by
    refine ((nodup_walk hn _ _).filter _).map_on fun y hy z hz hyz => Prod.ext hyz ?_
    have hy := (List.mem_filter.1 hy).2
    have hz := (List.mem_filter.1 hz).2
    exact (of_decide_eq_true hy).trans (of_decide_eq_true hz).symm
  rw [encard_of_nodup hnodup fun path => ?_]
  · rw [houtputs, List.reverse_reverse, List.count_filterMap, List.countP_map,
      List.countP_eq_length_filter, List.length_map]
    refine congrArg _ (congrArg (fun p => List.length (List.filter p _)) (funext fun y => ?_))
    rw [Function.comp_apply, Bool.eq_iff_iff]
    simp
  · simp only [Delivers, Set.mem_ofPred_eq, List.mem_map, List.mem_filter, decide_eq_true_eq,
      Prod.exists, exists_and_right, exists_eq_right, hwalk, blockOutput_mem_referrers]
    exact exists_congr fun u => and_comm

/-! ## All inputs -/

theorem input?_setInput (n : Network) (id : InputId) (t : InputTyping) (id' : InputId) :
    (n.setInput (id, t)).input? id' = if id = id' then
      (n.input? id').map fun i => { i with type := t.type, pipelineOutputs := t.pipelineOutputs }
    else n.input? id' :=
  n.input?_modifyInput id _ id'

/-- With typings set the inputs are those that were there. -/
theorem input?_setInputs_eq_none {ts : List (InputId × InputTyping)} {id : InputId} :
    (n.setInputs ts).input? id = none ↔ n.input? id = none := by
  unfold setInputs
  induction ts generalizing n with
  | nil => rfl
  | cons x ts ih =>
    rw [List.foldl_cons, ih, input?_setInput]
    split <;> simp

/-- An input has a typing of the list, or is as it was if there is none for it. -/
theorem input?_setInputs {ts : List (InputId × InputTyping)} {id : InputId} {i : BlockInput}
    (hi : (n.setInputs ts).input? id = some i) :
    (∃ t, (id, t) ∈ ts ∧ i.type = t.type ∧ i.pipelineOutputs = t.pipelineOutputs) ∨
      n.input? id = some i ∧ id ∉ ts.map Prod.fst := by
  unfold setInputs at hi
  induction ts generalizing n with
  | nil => exact Or.inr ⟨hi, by simp⟩
  | cons x ts ih =>
    obtain ⟨id', t⟩ := x
    rw [List.foldl_cons] at hi
    rcases ih hi with ⟨u, hu, hi⟩ | ⟨hi, hid⟩
    · exact Or.inl ⟨u, List.mem_cons_of_mem _ hu, hi⟩
    · rw [input?_setInput] at hi
      split at hi
      · rename_i heq
        obtain ⟨i', -, rfl⟩ := Option.map_eq_some_iff.1 hi
        exact Or.inl ⟨t, heq ▸ List.mem_cons_self, rfl, rfl⟩
      · rename_i hne
        refine Or.inr ⟨hi, ?_⟩
        rw [List.map_cons, List.mem_cons, not_or]
        exact ⟨fun heq => hne heq.symm, hid⟩

/-- With the typings found, an input has the type that all it flows to asks for, and lists each
output of the block as often as there are paths to it. -/
theorem input?_inferInputs (hn : n.Prepared) {ts : List (InputId × InputTyping)}
    (h : n.inferInputs = .ok ts) {id : InputId} {i : BlockInput}
    (hi : (n.setInputs ts).input? id = some i) : n.types.IsMeet (n.Requires id) i.type ∧
      ∀ o, {path | n.Delivers id o path}.encard = i.pipelineOutputs.count o := by
  unfold inferInputs at h
  rcases input?_setInputs hi with ⟨t, ht, htype, houtputs⟩ | ⟨hi, hid⟩
  · obtain ⟨id', -, hstep⟩ := mem_of_mapM_eq_ok h ht
    obtain ⟨u, hu, hstep⟩ := bind_eq_ok.1 hstep
    obtain ⟨rfl, rfl⟩ := Prod.mk.inj (pure_eq_ok.1 hstep)
    rw [htype, houtputs]
    exact ⟨inferInput_isMeet hn hu, encard_delivers_inferInput hn hu⟩
  · obtain ⟨x, hx, hstep⟩ := exists_mem_of_mapM_eq_ok h (mem_inputIds hi)
    obtain ⟨u, -, hstep⟩ := bind_eq_ok.1 hstep
    obtain rfl := pure_eq_ok.1 hstep
    exact absurd (List.mem_map_of_mem hx) hid

end Network

end Blockwork
