import Blockwork.Network.Basic
import Mathlib.Data.List.Nodup

/-!
# What compilation keeps

After its references are resolved, a network keeps its wiring: which attributes there are,
what they hold, and what is declared of them. Freezing and checking change the frozen types
and links of attributes and the results and links of outputs only. `bare` forgets these, so a
stage keeps the wiring if it keeps the bare network.

The first lemmas say what is found at a position after a change at another one.
-/

namespace Blockwork

/-! ## Reading what was changed -/

namespace Declaration

theorem slot?_eq_some {d : Declaration} {p a : Nat} {s : Slot} :
    d.slot? p a = some s ↔ ∃ q, d.parameters[p]? = some q ∧ q.slots[a]? = some s :=
  Option.bind_eq_some_iff

theorem slot?_congr {d d' : Declaration} (h : d.parameters = d'.parameters) (p a : Nat) :
    d.slot? p a = d'.slot? p a := by
  unfold slot?
  rw [h]

theorem slot?_modifySlot (d : Declaration) (p a : Nat) (f : Slot → Slot) (p' a' : Nat) :
    (d.modifySlot p a f).slot? p' a' =
      if p = p' ∧ a = a' then (d.slot? p' a').map f else d.slot? p' a' := by
  unfold slot? modifySlot
  simp only [List.getElem?_modify]
  by_cases hp : p = p'
  · subst hp
    cases d.parameters[p]? with
    | none => simp
    | some q =>
      by_cases ha : a = a'
      · subst ha
        simp
      · simp [ha]
  · simp [hp]

@[simp] theorem parameters_modifyOutput (d : Declaration) (o : Nat) (f : Output → Output) :
    (d.modifyOutput o f).parameters = d.parameters :=
  rfl

theorem outputs_modifyOutput (d : Declaration) (o : Nat) (f : Output → Output) (o' : Nat) :
    (d.modifyOutput o f).outputs[o']? =
      if o = o' then d.outputs[o']?.map f else d.outputs[o']? := by
  unfold modifyOutput
  rw [List.getElem?_modify]
  split <;> simp

/-- The attributes are those found at a position. -/
theorem mem_slots {d : Declaration} {p a : Nat} {s : Slot} :
    ((p, a), s) ∈ d.slots ↔ d.slot? p a = some s := by
  rw [slot?_eq_some]
  simp only [slots, List.mem_flatMap, List.mem_map, Prod.exists, List.mk_mem_zipIdx_iff_getElem?,
    Prod.mk.injEq]
  constructor
  · rintro ⟨q, _, hq, t, _, ht, ⟨rfl, rfl⟩, rfl⟩
    exact ⟨q, hq, ht⟩
  · rintro ⟨q, hq, hs⟩
    exact ⟨q, p, hq, s, a, hs, ⟨rfl, rfl⟩, rfl⟩

theorem mem_slots_fst {d : Declaration} {p a : Nat} :
    (p, a) ∈ d.slots.map Prod.fst ↔ ∃ s, d.slot? p a = some s := by
  simp [mem_slots]

/-- The positions in a list are different. -/
theorem pairwise_zipIdx {α : Type} (l : List α) : l.zipIdx.Pairwise fun x y => x.2 ≠ y.2 := by
  rw [← List.pairwise_map, List.zipIdx_map_snd]
  exact List.nodup_range'

/-- The attributes are listed once each. -/
theorem nodup_positions (d : Declaration) : (d.slots.map Prod.fst).Nodup := by
  unfold slots
  rw [List.map_flatMap, List.nodup_flatMap]
  refine ⟨fun ⟨q, i⟩ _ => ?_, (pairwise_zipIdx d.parameters).imp fun {x y} hxy z hx hy => hxy ?_⟩
  · rw [List.map_map, List.nodup_iff_pairwise_ne, List.pairwise_map]
    exact (pairwise_zipIdx q.slots).imp fun hxy heq => hxy (Prod.mk.inj heq).2
  · simp only [List.map_map, List.mem_map, Function.comp_apply] at hx hy
    obtain ⟨_, -, rfl⟩ := hx
    obtain ⟨_, -, heq⟩ := hy
    exact (Prod.mk.inj heq).1.symm

end Declaration

namespace Network

variable (n : Network)

theorem declaration?_modifyDeclaration (d : Nat) (f : Declaration → Declaration) (e : Nat) :
    (n.modifyDeclaration d f).declaration? e =
      if d = e then (n.declaration? e).map f else n.declaration? e := by
  unfold declaration? modifyDeclaration
  rw [List.getElem?_modify]
  split <;> simp

theorem declaration?_modifyDeclaration_of_ne {d e : Nat} (h : d ≠ e)
    (f : Declaration → Declaration) :
    (n.modifyDeclaration d f).declaration? e = n.declaration? e := by
  rw [declaration?_modifyDeclaration, if_neg h]

variable {n}

theorem slot?_eq_some {id : SlotId} {s : Slot} :
    n.slot? id = some s ↔
      ∃ d, n.declaration? id.declaration = some d ∧ d.slot? id.param id.attr = some s :=
  Option.bind_eq_some_iff

theorem output?_eq_some {id : OutputId} {o : Output} :
    n.output? id = some o ↔
      ∃ d, n.declaration? id.declaration = some d ∧ d.outputs[id.output]? = some o :=
  Option.bind_eq_some_iff

/-- A declaration that is replaced is the new one. -/
theorem declaration?_replace {i : Nat} {d e : Declaration} (h : n.declaration? i = some d) :
    (n.modifyDeclaration i fun _ => e).declaration? i = some e := by
  rw [declaration?_modifyDeclaration, if_pos rfl, h]
  rfl

theorem slot?_of_declaration? {id : SlotId} {d : Declaration}
    (hd : n.declaration? id.declaration = some d) :
    n.slot? id = d.slot? id.param id.attr := by
  unfold slot?
  rw [hd]
  rfl

theorem slot?_replace {i : Nat} {d e : Declaration} (h : n.declaration? i = some d) (p a : Nat) :
    (n.modifyDeclaration i fun _ => e).slot? ⟨i, p, a⟩ = e.slot? p a := by
  unfold slot?
  rw [declaration?_replace h]
  rfl

section Congr

variable {m : Network}

theorem declaration?_congr (h : m.declarations = n.declarations) :
    m.declaration? = n.declaration? := by
  funext i
  unfold declaration?
  rw [h]

theorem slot?_congr (h : m.declarations = n.declarations) : m.slot? = n.slot? := by
  funext id
  unfold slot?
  rw [declaration?_congr h]

theorem output?_congr (h : m.declarations = n.declarations) : m.output? = n.output? := by
  funext id
  unfold output?
  rw [declaration?_congr h]

theorem input?_congr (h : m.params = n.params) : m.input? = n.input? := by
  funext id
  unfold input?
  rw [h]

end Congr

theorem output?_modifyDeclaration_of_ne {j : Nat} {id : OutputId} (h : j ≠ id.declaration)
    (f : Declaration → Declaration) : (n.modifyDeclaration j f).output? id = n.output? id := by
  unfold output?
  rw [declaration?_modifyDeclaration_of_ne _ h]

theorem input?_modifyInput (n : Network) (id : InputId) (f : BlockInput → BlockInput)
    (id' : InputId) : (n.modifyInput id f).input? id' =
      if id = id' then (n.input? id').map f else n.input? id' := by
  obtain ⟨p, a⟩ := id
  obtain ⟨p', a'⟩ := id'
  unfold input? modifyInput
  simp only [List.getElem?_modify, InputId.mk.injEq]
  by_cases hp : p = p'
  · subst hp
    cases n.params[p]? with
    | none => simp
    | some q =>
      by_cases ha : a = a'
      · subst ha
        simp
      · simp [ha]
  · simp [hp]

theorem mem_inputIds {id : InputId} {i : BlockInput} (hi : n.input? id = some i) :
    id ∈ n.inputIds := by
  obtain ⟨p, hp, hi⟩ := Option.bind_eq_some_iff.1 hi
  refine List.mem_flatMap.2 ⟨(p, id.param), List.mk_mem_zipIdx_iff_getElem?.2 hp, ?_⟩
  exact List.mem_map.2 ⟨id.attr, List.mem_range.2 (List.getElem?_eq_some_iff.1 hi).1, rfl⟩

end Network

/-! ## The bare network -/

/-- The attribute without what freezing finds out. -/
def Slot.bare (s : Slot) : Slot :=
  { s with frozen := none, feeds := [] }

/-- The output without what freezing and checking find out. -/
def Output.bare (o : Output) : Output :=
  { o with result := none, fedBy := [] }

/-- The occurrence with bare attributes. -/
def Parameter.bare (p : Parameter) : Parameter :=
  { p with slots := p.slots.map Slot.bare }

/-- The declaration with bare attributes and outputs. -/
def Declaration.bare (d : Declaration) : Declaration :=
  { d with parameters := d.parameters.map Parameter.bare, outputs := d.outputs.map Output.bare }

/-- The network with bare declarations. -/
def Network.bare (n : Network) : Network :=
  { n with declarations := n.declarations.map Declaration.bare }

theorem map_modify_of_eq {α β : Type} {g : α → β} {f : α → α} {l : List α} {i : Nat}
    (h : ∀ a, l[i]? = some a → g (f a) = g a) : (l.modify i f).map g = l.map g := by
  refine List.ext_getElem? fun j => ?_
  rw [List.getElem?_map, List.getElem?_map, List.getElem?_modify]
  by_cases hj : i = j
  · subst hj
    cases hl : l[i]? with
    | none => simp
    | some a => simpa using h a hl
  · simp [hj]

namespace Declaration

variable {d d' : Declaration}

theorem slot?_bare (d : Declaration) (p a : Nat) :
    d.bare.slot? p a = (d.slot? p a).map Slot.bare := by
  unfold slot? bare
  simp only [List.getElem?_map]
  cases d.parameters[p]? <;> simp [Parameter.bare]

theorem outputs_bare (d : Declaration) (o : Nat) :
    d.bare.outputs[o]? = d.outputs[o]?.map Output.bare :=
  List.getElem?_map

theorem slots_bare (d : Declaration) :
    d.bare.slots = d.slots.map fun x => (x.1, x.2.bare) := by
  simp only [slots, bare, List.zipIdx_map, List.flatMap_map, List.map_flatMap]
  refine congrArg (fun f => d.parameters.zipIdx.flatMap f) (funext fun ⟨q, i⟩ => ?_)
  simp [Parameter.bare, List.zipIdx_map]

/-- With the same bare declaration there are the same attributes. -/
theorem exists_slot?_of_bare (h : d'.bare = d.bare) {p a : Nat} {s' : Slot}
    (hs : d'.slot? p a = some s') : ∃ s, d.slot? p a = some s ∧ s'.bare = s.bare := by
  have heq := congrArg (fun d => d.slot? p a) h
  simp only [slot?_bare, hs, Option.map_some] at heq
  obtain ⟨s, hs, hbare⟩ := Option.map_eq_some_iff.1 heq.symm
  exact ⟨s, hs, hbare.symm⟩

theorem slot?_eq_none_of_bare (h : d'.bare = d.bare) {p a : Nat} :
    d'.slot? p a = none ↔ d.slot? p a = none := by
  rw [← Option.map_eq_none_iff (f := Slot.bare), ← slot?_bare, h, slot?_bare,
    Option.map_eq_none_iff]

theorem outputs_eq_none_of_bare (h : d'.bare = d.bare) {i : Nat} :
    d'.outputs[i]? = none ↔ d.outputs[i]? = none := by
  rw [← Option.map_eq_none_iff (f := Output.bare), ← outputs_bare, h, outputs_bare,
    Option.map_eq_none_iff]

theorem positions_bare (h : d'.bare = d.bare) :
    d'.slots.map Prod.fst = d.slots.map Prod.fst := by
  have heq := congrArg (fun d => d.slots.map Prod.fst) h
  simpa only [slots_bare, List.map_map, Function.comp_def] using heq

theorem bare_modifySlot {p a : Nat} {f : Slot → Slot} (hf : ∀ s, (f s).bare = s.bare) :
    (d.modifySlot p a f).bare = d.bare := by
  unfold bare modifySlot
  simp only [Declaration.mk.injEq, true_and, and_true]
  refine map_modify_of_eq fun q _ => ?_
  simp only [Parameter.bare, Parameter.mk.injEq, true_and]
  exact map_modify_of_eq fun s _ => hf s

theorem bare_modifyOutput {i : Nat} {f : Output → Output} (hf : ∀ o, (f o).bare = o.bare) :
    (d.modifyOutput i f).bare = d.bare := by
  unfold bare modifyOutput
  simp only [Declaration.mk.injEq, true_and]
  exact map_modify_of_eq fun o _ => hf o

end Declaration

namespace Network

variable {n c : Network}

theorem bare_modifyDeclaration {d : Nat} {f : Declaration → Declaration}
    (hf : ∀ decl, n.declaration? d = some decl → (f decl).bare = decl.bare) :
    (n.modifyDeclaration d f).bare = n.bare := by
  unfold bare modifyDeclaration
  simp only [Network.mk.injEq, true_and, and_true]
  exact map_modify_of_eq hf

theorem declaration?_bare (n : Network) (d : Nat) :
    n.bare.declaration? d = (n.declaration? d).map Declaration.bare :=
  List.getElem?_map

/-- Networks with the same bare network have the same bare declarations. -/
theorem exists_declaration?_of_bare (h : c.bare = n.bare) {i : Nat} {d' : Declaration}
    (hd : c.declaration? i = some d') :
    ∃ d, n.declaration? i = some d ∧ d'.bare = d.bare := by
  have heq := congrArg (fun n => n.declaration? i) h
  simp only [declaration?_bare, hd, Option.map_some] at heq
  obtain ⟨d, hd, hbare⟩ := Option.map_eq_some_iff.1 heq.symm
  exact ⟨d, hd, hbare.symm⟩

theorem exists_slot?_of_bare (h : c.bare = n.bare) {id : SlotId} {s' : Slot}
    (hs : c.slot? id = some s') : ∃ s, n.slot? id = some s ∧ s'.bare = s.bare := by
  obtain ⟨d', hd', hs⟩ := slot?_eq_some.1 hs
  obtain ⟨d, hd, hbare⟩ := exists_declaration?_of_bare h hd'
  obtain ⟨s, hs, hsbare⟩ := Declaration.exists_slot?_of_bare hbare hs
  exact ⟨s, slot?_eq_some.2 ⟨d, hd, hs⟩, hsbare⟩

theorem declaration?_eq_none_of_bare (h : c.bare = n.bare) {i : Nat} :
    c.declaration? i = none ↔ n.declaration? i = none := by
  rw [← Option.map_eq_none_iff (f := Declaration.bare), ← declaration?_bare, h,
    declaration?_bare, Option.map_eq_none_iff]

end Network

end Blockwork
