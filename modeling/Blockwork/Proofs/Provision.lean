import Blockwork.Network.Provision
import Blockwork.Proofs.Paths
import Blockwork.Proofs.ReducedTypes

/-!
# What targets provide

An open target provides the join of the types of all inputs that flow to it, and any other target
the type it has (`Provides`). There is one such type only (`Provides.unique`), and it is the one
found by going back over the pipelines (`provides_providedWithin`).
-/

namespace Blockwork

namespace Network

variable {n m : Network} {id : OutputId} {input : InputId} {x : SlotId} {t : Target}
  {a b type : ClassType}

/-- What is given for an input of the type flows to the target. -/
def Supplies (n : Network) (t : Target) (type : ClassType) : Prop :=
  ∃ input i, n.input? input = some i ∧ n.Carries input t ∧ i.type = type

/-- What is given for an input of the type flows to the attribute. -/
def SuppliesSlot (n : Network) (x : SlotId) (type : ClassType) : Prop :=
  ∃ s t, n.slot? x = some s ∧ s.binding = .reference t ∧ n.Supplies t type

/-- The attribute is a pipeline into the output. -/
def Feeds (n : Network) (x : SlotId) (id : OutputId) : Prop :=
  x.declaration = id.declaration ∧ ∃ s, n.slot? x = some s ∧ id.output ∈ s.feeds

theorem supplies_iff_targetType? : n.Supplies t type ↔
    ∃ input, n.targetType? (.input input) = some type ∧ n.Carries input t := by
  simp only [Supplies, targetType?, Option.map_eq_some_iff]
  constructor
  · rintro ⟨input, i, hi, hcarries, htype⟩
    exact ⟨input, ⟨i, hi, htype⟩, hcarries⟩
  · rintro ⟨input, ⟨i, hi, htype⟩, hcarries⟩
    exact ⟨input, i, hi, hcarries, htype⟩

theorem supplies_input {i : BlockInput} (hi : n.input? input = some i) :
    n.Supplies (.input input) type ↔ type = i.type := by
  simp [Supplies, hi, eq_comm]

/-- An output is supplied by its pipelines. -/
theorem supplies_output :
    n.Supplies (.output id) type ↔ ∃ x, n.Feeds x id ∧ n.SuppliesSlot x type := by
  constructor
  · rintro ⟨input, i, hi, hcarries, rfl⟩
    obtain ⟨p, a, s, t, hs, ht, hk, hcarries⟩ := carries_output.1 hcarries
    exact ⟨_, ⟨rfl, s, hs, hk⟩, s, t, hs, ht, input, i, hi, hcarries, rfl⟩
  · rintro ⟨⟨d, p, a⟩, ⟨rfl, s, hs, hk⟩, s', t, hs', ht, input, i, hi, hcarries, rfl⟩
    obtain rfl := Option.some.inj (hs.symm.trans hs')
    exact ⟨input, i, hi, carries_output.2 ⟨p, a, s, t, hs, ht, hk, hcarries⟩, rfl⟩

/-- An attribute is supplied by what it refers to. -/
theorem isJoin_slot {s : Slot} (hs : n.slot? x = some s) (ht : s.binding = .reference t)
    (h : n.types.IsJoin (n.Supplies t) type) : n.types.IsJoin (n.SuppliesSlot x) type :=
  h.congr fun u => by simp [SuppliesSlot, hs, ht]

theorem Prepared.mem_fedBy (hn : n.Prepared) {o : Output} (ho : n.output? id = some o)
    {p a : Nat} : (p, a) ∈ o.fedBy ↔ n.Feeds ⟨id.declaration, p, a⟩ id := by
  obtain ⟨d, hd, ho⟩ := output?_eq_some.1 ho
  rw [(hn.linked _ d hd).fedBy id.output o ho, Declaration.mem_feedsAt]
  simp [Feeds, slot?_eq_some, hd]

/-- The output has pipelines if some attribute is one. -/
theorem Prepared.fedBy_ne_nil (hn : n.Prepared) {o : Output} (ho : n.output? id = some o) :
    o.fedBy ≠ [] ↔ ∃ x, n.Feeds x id := by
  constructor
  · intro hfed
    obtain ⟨x, hx⟩ := List.exists_mem_of_ne_nil _ hfed
    exact ⟨_, (hn.mem_fedBy ho).1 hx⟩
  · rintro ⟨⟨d, p, a⟩, hx⟩
    obtain rfl := hx.1
    exact List.ne_nil_of_mem ((hn.mem_fedBy ho).2 hx)

/-- An output is supplied by the attributes in its list of pipelines. -/
theorem Prepared.supplies_iff_fedBy (hn : n.Prepared) {o : Output} (ho : n.output? id = some o) :
    n.Supplies (.output id) type ↔
      ∃ x, x ∈ o.fedBy ∧ n.SuppliesSlot ⟨id.declaration, x.1, x.2⟩ type := by
  rw [supplies_output]
  constructor
  · rintro ⟨⟨i, p, a⟩, hx, htype⟩
    obtain rfl := hx.1
    exact ⟨(p, a), (hn.mem_fedBy ho).2 hx, htype⟩
  · rintro ⟨⟨p, a⟩, hx, htype⟩
    exact ⟨_, (hn.mem_fedBy ho).1 hx, htype⟩

/-- An attribute that is a pipeline carries what an open target provides. -/
theorem Prepared.isOpen_of_feeds (hn : n.Prepared) (hx : n.Feeds x id) :
    ∃ s t, n.slot? x = some s ∧ s.binding = .reference t ∧ n.IsOpen t := by
  obtain ⟨-, s, hs, hk⟩ := hx
  obtain ⟨t, ht, hopen⟩ := hn.isOpen x s hs (List.ne_nil_of_mem hk)
  exact ⟨s, t, hs, ht, hopen⟩

/-! ## Types of targets -/

/-- The type a target provides: the narrowest one to hold what flows to it if it is open, and
otherwise the one it has. -/
inductive Provides (n : Network) : Target → ClassType → Prop
  | flowing {t : Target} {type : ClassType} (ht : n.IsOpen t)
    (htype : n.types.IsJoin (n.Supplies t) type) : Provides n t type
  | fixed {id : OutputId} {o : Output} (ho : n.output? id = some o) (hnil : o.fedBy = []) :
    Provides n (.output id) o.type

namespace Provides

theorem isJoin (h : n.Provides t type) (ht : n.IsOpen t) :
    n.types.IsJoin (n.Supplies t) type := by
  cases h with
  | flowing _ htype => exact htype
  | fixed ho hnil =>
    obtain ⟨o', ho', hfed⟩ := ht
    exact absurd (Option.some.inj (ho.symm.trans ho') ▸ hnil) hfed

theorem unique (hw : n.types.WellFormed) (ha : n.Provides t a) (hb : n.Provides t b) : a = b := by
  cases ha with
  | flowing ht htype => exact htype.unique hw (hb.isJoin ht)
  | fixed ho hnil =>
    cases hb with
    | flowing ht _ =>
      obtain ⟨o', ho', hfed⟩ := ht
      exact absurd (Option.some.inj (ho.symm.trans ho') ▸ hnil) hfed
    | fixed ho' _ => rw [Option.some.inj (ho.symm.trans ho')]

theorem hasTarget (h : n.Provides (.output id) type) : n.HasTarget (.output id) := by
  cases h with
  | flowing ht _ =>
    obtain ⟨o, ho, -⟩ := ht
    exact ⟨o.type, congrArg (Option.map Output.type) ho⟩
  | fixed ho _ => exact ⟨_, congrArg (Option.map Output.type) ho⟩

theorem formed (hn : n.Prepared) (h : n.Provides t type) : n.types.Formed type := by
  cases h with
  | flowing _ htype => exact htype.reduced.toFormed
  | fixed ho _ => exact hn.outputs _ _ ho

/-- A target that inputs flow to is open. -/
theorem isOpen_of_carries (hn : n.Prepared) (h : n.Provides t type) (hc : n.Carries input t) :
    n.IsOpen t := by
  cases h with
  | flowing ht _ => exact ht
  | fixed ho hnil =>
    obtain ⟨p, a, s, t, hs, ht, hk, -⟩ := carries_output.1 hc
    exact absurd hnil ((hn.fedBy_ne_nil ho).2 ⟨_, rfl, s, hs, hk⟩)

end Provides

/-! ## Going back over pipelines -/

/-- The types of the inputs are reduced. -/
def InputsReduced (n : Network) : Prop :=
  ∀ input i, n.input? input = some i → n.types.Reduced i.type

/-- An input provides its type. -/
theorem InputsReduced.provides (hi : n.InputsReduced) (hw : n.types.WellFormed) {i : BlockInput}
    (hinput : n.input? input = some i) : n.Provides (.input input) i.type :=
  .flowing trivial ((Hierarchy.IsJoin.self hw (hi input i hinput)).congr fun _ =>
    supplies_input hinput)

/-- The type of what flows into an attribute, or its own if it refers to nothing. -/
def carriedWithin (n : Network) (bound : Nat) (s : Slot) : Except Fault ClassType :=
  match s.binding with
  | .reference t => n.providedWithin bound t
  | _ => .ok s.type

/-- The result of widening by what an attribute of the declaration carries. -/
def widenCarried (n : Network) (bound : Nat) (d : Declaration) (result : Option ClassType)
    (x : Nat × Nat) : Except Fault (Option ClassType) := do
  let s ← require .outOfRange (d.slot? x.1 x.2)
  let type ← n.carriedWithin bound s
  return some (n.types.widen result type)

theorem providedWithin_output (n : Network) (bound : Nat) (id : OutputId) :
    n.providedWithin (bound + 1) (.output id) = do
      let d ← require .outOfRange (n.declaration? id.declaration)
      let o ← require .outOfRange d.outputs[id.output]?
      let result ← o.fedBy.foldlM (n.widenCarried bound d) none
      return result.getD o.type := by
  rw [providedWithin]
  refine bind_congr fun d => bind_congr fun o => ?_
  refine congrArg (fun f => o.fedBy.foldlM f none >>= fun result => pure (result.getD o.type)) ?_
  funext result x
  refine bind_congr fun s => ?_
  unfold carriedWithin
  cases s.binding <;> rfl

/-- The type of a target is found from its output and the types of what flows into it. -/
theorem providedWithin_output_eq_ok {bound : Nat} :
    n.providedWithin (bound + 1) (.output id) = .ok a ↔
      ∃ d o result, n.declaration? id.declaration = some d ∧ d.outputs[id.output]? = some o ∧
        o.fedBy.foldlM (n.widenCarried bound d) none = .ok result ∧ a = result.getD o.type := by
  simp only [providedWithin_output, bind_eq_ok, require_eq_ok, pure_eq_ok]
  constructor
  · rintro ⟨d, hd, o, ho, result, hresult, rfl⟩
    exact ⟨d, o, result, hd, ho, hresult, rfl⟩
  · rintro ⟨d, o, result, hd, ho, hresult, rfl⟩
    exact ⟨d, hd, o, ho, result, hresult, rfl⟩

/-- Widening by all pipelines of an output gives the join of what is supplied over them. -/
theorem joinOver_fedBy (hn : n.Prepared) {bound : Nat}
    (hprovides : ∀ t type, n.providedWithin bound t = .ok type → n.Provides t type)
    {d : Declaration} (hd : n.declaration? id.declaration = some d) {o : Output}
    (ho : d.outputs[id.output]? = some o) {result : Option ClassType}
    (h : o.fedBy.foldlM (n.widenCarried bound d) none = .ok result) :
    n.types.JoinOver (· ∈ o.fedBy) (fun x => n.SuppliesSlot ⟨id.declaration, x.1, x.2⟩)
      result :=
  foldlM_invariant_done
    (fun done result => n.types.JoinOver (· ∈ done)
      (fun x => n.SuppliesSlot ⟨id.declaration, x.1, x.2⟩) result)
    (fun done x rest result result' hdone hjoin hstep => by
      obtain ⟨s, hs, hstep⟩ := bind_eq_ok.1 hstep
      obtain ⟨type, htype, hstep⟩ := bind_eq_ok.1 hstep
      obtain rfl := pure_eq_ok.1 hstep
      have hslot : n.slot? ⟨id.declaration, x.1, x.2⟩ = some s :=
        slot?_eq_some.2 ⟨d, hd, require_eq_ok.1 hs⟩
      have hx : (x.1, x.2) ∈ o.fedBy := hdone ▸ List.mem_append_right _ List.mem_cons_self
      have hfeeds := (hn.mem_fedBy (output?_eq_some.2 ⟨d, hd, ho⟩)).1 hx
      obtain ⟨s', t, hs', ht, hopen⟩ := hn.isOpen_of_feeds hfeeds
      obtain rfl := Option.some.inj (hslot.symm.trans hs')
      unfold carriedWithin at htype
      rw [ht] at htype
      exact hjoin.widen hn.types (isJoin_slot hslot ht ((hprovides t type htype).isJoin hopen))
        fun y => by simp)
    (Hierarchy.joinOver_none.2 fun _ => List.not_mem_nil) h

/-- Going back over the pipelines finds the type that the target provides. -/
theorem provides_providedWithin (hn : n.Prepared) (hi : n.InputsReduced) :
    ∀ {bound : Nat} {t : Target} {type : ClassType},
      n.providedWithin bound t = .ok type → n.Provides t type
  | 0, _, _, h => by simp [providedWithin] at h
  | _ + 1, .input input, type, h => by
    unfold providedWithin at h
    obtain ⟨i, hinput, h⟩ := bind_eq_ok.1 h
    exact pure_eq_ok.1 h ▸ hi.provides hn.types (require_eq_ok.1 hinput)
  | bound + 1, .output id, type, h => by
    obtain ⟨d, o, result, hd, ho, hresult, rfl⟩ := providedWithin_output_eq_ok.1 h
    have hout : n.output? id = some o := output?_eq_some.2 ⟨d, hd, ho⟩
    by_cases hnil : o.fedBy = []
    · rw [hnil, List.foldlM_nil, pure_eq_ok] at hresult
      exact hresult ▸ .fixed hout hnil
    have hjoin := joinOver_fedBy hn (fun _ _ => provides_providedWithin hn hi) hd ho hresult
    obtain ⟨x, hx⟩ := List.exists_mem_of_ne_nil _ hnil
    obtain ⟨r, rfl, hr⟩ := hjoin.exists_isJoin hx
    exact .flowing ⟨o, hout, hnil⟩ (hr.congr fun u => hn.supplies_iff_fedBy hout)

end Network

end Blockwork
