import Blockwork.Proofs.Schedules
import Blockwork.Proofs.Wiring
import Mathlib.Data.List.Perm.Subperm

/-!
# Execution orders

`Executable` says of a list of declarations that each comes after those it depends on. A
network is `Forward` if its order is such a list of all its declarations. The order found by
sorting makes it so (`forward_of_sort`).

A stage that goes through a forward network in its order, and changes only the declaration it
is at, leaves behind whatever it makes sure of at each declaration, as long as that depends on
the declaration and on what it refers to (`stage_invariant`): later steps are at other
declarations, to which nothing executed before refers.
-/

namespace Blockwork

theorem Declaration.referredTo_bare (d : Declaration) : d.bare.referredTo = d.referredTo := by
  unfold referredTo
  rw [slots_bare, List.filterMap_map]
  rfl

theorem Declaration.mem_referredTo {d : Declaration} {e : Nat} : e ∈ d.referredTo ↔
    ∃ p a s o, d.slot? p a = some s ∧ s.binding = .reference (.output ⟨e, o⟩) := by
  simp only [referredTo, List.mem_filterMap, Prod.exists, mem_slots]
  constructor
  · rintro ⟨p, a, s, hs, h⟩
    split at h
    · rename_i id hb
      obtain rfl := Option.some.inj h
      exact ⟨p, a, s, id.output, hs, hb⟩
    · simp at h
  · rintro ⟨p, a, s, o, hs, hb⟩
    exact ⟨p, a, s, hs, by rw [hb]⟩

namespace Network

variable {n c : Network}

theorem dependsOn_bare (n : Network) (d e : Nat) : n.bare.dependsOn d e = n.dependsOn d e := by
  unfold dependsOn
  rw [declaration?_bare, Option.any_map]
  refine congrFun (congrArg Option.any (funext fun decl => ?_)) _
  simp [Declaration.referredTo_bare]

theorem dependsOn_congr (h : c.bare = n.bare) (d e : Nat) : c.dependsOn d e = n.dependsOn d e := by
  rw [← dependsOn_bare c, h, dependsOn_bare]

/-- What an attribute refers to belongs to a declaration that its own depends on. -/
theorem ne_of_not_dependsOn {i j : Nat} {d : Declaration} (hd : n.declaration? i = some d)
    (hij : ¬n.dependsOn i j = true) {p a : Nat} {s : Slot} (hs : d.slot? p a = some s)
    {id : OutputId} (hid : s.binding = .reference (.output id)) : j ≠ id.declaration := by
  rintro rfl
  exact hij (dependsOn_iff.2 ⟨d, hd,
    Declaration.mem_referredTo.2 ⟨p, a, s, id.output, hs, hid⟩⟩)

/-! ## Orders -/

/-- Each declaration is new when its turn comes, and what it depends on is executed by then. -/
def Executable (n : Network) : (done order : List Nat) → Prop
  | _, [] => True
  | done, d :: ds =>
    d ∉ done ∧ (∀ e ∈ n.dependencies d, e ∈ done) ∧ n.Executable (d :: done) ds

instance Executable.decidable (n : Network) :
    ∀ done order : List Nat, Decidable (n.Executable done order)
  | _, [] => isTrue trivial
  | done, d :: ds =>
    haveI := Executable.decidable n (d :: done) ds
    inferInstanceAs (Decidable
      (d ∉ done ∧ (∀ e ∈ n.dependencies d, e ∈ done) ∧ n.Executable (d :: done) ds))

theorem Executable.not_mem {order : List Nat} :
    ∀ {done : List Nat}, n.Executable done order → ∀ d ∈ order, d ∉ done := by
  induction order with
  | nil => simp
  | cons d ds ih =>
    rintro done ⟨hnew, -, hds⟩ e he
    rcases List.mem_cons.1 he with rfl | he
    · exact hnew
    · exact fun h => ih hds e he (List.mem_cons_of_mem d h)

/-- Nothing in the order depends on what comes later, or on itself. -/
theorem Executable.not_dependsOn {order : List Nat} (hsub : ∀ d ∈ order, d ∈ n.positions) :
    ∀ {done : List Nat}, n.Executable done order →
      order.Pairwise (fun d e => ¬n.dependsOn d e = true) ∧
        ∀ d ∈ order, ¬n.dependsOn d d = true := by
  induction order with
  | nil => simp
  | cons d ds ih =>
    rintro done hd
    obtain ⟨hpair, hself⟩ := ih (fun e he => hsub e (List.mem_cons_of_mem d he)) hd.2.2
    have hnot : ∀ e ∈ d :: ds, ¬n.dependsOn d e = true := fun e he h =>
      hd.not_mem e he (hd.2.1 e (mem_dependencies.2 ⟨hsub e he, h⟩))
    exact ⟨List.pairwise_cons.2 ⟨fun e he => hnot e (List.mem_cons_of_mem d he), hpair⟩,
      List.forall_mem_cons.2 ⟨hnot d List.mem_cons_self, hself⟩⟩

theorem subperm_executeFrom (done left : List Nat) : (n.executeFrom done left).Subperm left := by
  fun_induction executeFrom n done left with
  | case1 => exact List.nil_subperm
  | case2 done left d h ih =>
    have hmem : d ∈ left := (List.mem_filter.1 (n.first?_mem h)).1
    exact (List.perm_cons_erase hmem).symm.subperm_left.1 ((List.subperm_cons d).2 ih)

theorem executable_executeFrom (done left : List Nat) (hnodup : left.Nodup)
    (hnew : ∀ d ∈ left, d ∉ done) : n.Executable done (n.executeFrom done left) := by
  fun_induction executeFrom n done left with
  | case1 => trivial
  | case2 done left d h ih =>
    have hmem := List.mem_filter.1 (n.first?_mem h)
    have hready : ∀ e ∈ n.dependencies d, e ∈ done := by
      simpa [isReady] using hmem.2
    refine ⟨hnew d hmem.1, hready, ih (hnodup.erase d) fun e he => ?_⟩
    rw [hnodup.mem_erase_iff] at he
    rw [List.mem_cons, not_or]
    exact ⟨he.1, hnew e he.2⟩

/-- The order holds every declaration, after those it depends on. -/
structure Forward (n : Network) : Prop where
  perm : n.order.Perm n.positions
  executable : n.Executable [] n.order

instance : Decidable n.Forward :=
  decidable_of_iff (n.order.Perm n.positions ∧ n.Executable [] n.order)
    ⟨fun h => ⟨h.1, h.2⟩, fun h => ⟨h.perm, h.executable⟩⟩

theorem Forward.mem_order (hn : n.Forward) {i : Nat} {d : Declaration}
    (hd : n.declaration? i = some d) : i ∈ n.order :=
  hn.perm.mem_iff.2 (mem_positions.2 (List.getElem?_eq_some_iff.1 hd).1)

theorem dependencies_bare (n : Network) (d : Nat) : n.bare.dependencies d = n.dependencies d := by
  unfold dependencies positions
  rw [declaration?_bare, bare, List.length_map]
  cases n.declaration? d <;> simp [Declaration.referredTo_bare]

theorem Executable.of_declarations (hd : c.bare.declarations = n.bare.declarations) :
    ∀ {order done : List Nat}, n.Executable done order → c.Executable done order
  | [], _, _ => trivial
  | d :: _, _, h => by
    have hdep : c.dependencies d = n.dependencies d := by
      rw [← dependencies_bare c, ← dependencies_bare n]
      unfold dependencies positions declaration?
      rw [hd]
    exact ⟨h.1, hdep ▸ h.2.1, Executable.of_declarations hd h.2.2⟩

/-- Whether an order is forward depends on the bare declarations alone. -/
theorem Forward.of_declarations (h : n.Forward) (hd : c.bare.declarations = n.bare.declarations)
    (ho : c.order = n.order) : c.Forward := by
  have hlength := congrArg List.length hd
  simp only [bare, List.length_map] at hlength
  refine ⟨?_, ?_⟩
  · rw [ho, positions, hlength]
    exact h.perm
  · rw [ho]
    exact Executable.of_declarations hd h.executable

/-- Sorting finds a forward order. -/
theorem forward_of_sort {order : List Nat} (h : n.sort = .ok order) :
    ({ n with order } : Network).Forward := by
  have hsubperm := n.subperm_executeFrom [] n.positions
  rw [sort_eq] at h
  split at h
  · cases h
  rename_i hlength
  obtain rfl := Except.ok.inj h
  have hexec := n.executable_executeFrom [] n.positions List.nodup_range fun _ _ => by simp
  refine ⟨hsubperm.perm_of_length_le ?_, hexec.of_declarations (by rfl)⟩
  rw [positions, List.length_range]
  exact Nat.le_of_not_lt hlength

/-! ## Stages -/

/-- What a stage makes sure of at each declaration when it is there holds in the end. Here `I c`
is kept throughout, and `R c i` says what holds at declaration `i` of the network `c`. -/
theorem stage_invariant {step : Network → Nat → Except Fault Network} {I : Network → Prop}
    {R : Network → Nat → Prop} {m : Network} (hn : n.Forward) (hI : I n)
    (hstep : ∀ c i c', c.bare = n.bare → c.declaration? i = n.declaration? i → i ∈ n.order →
      I c → step c i = .ok c' →
        ∃ f, (∀ d, c.declaration? i = some d → (f d).bare = d.bare) ∧
          c' = c.modifyDeclaration i f ∧ I c' ∧ R c' i)
    (hkeeps : ∀ c i j f, c.bare = n.bare →
      (∀ d, c.declaration? j = some d → (f d).bare = d.bare) → j ≠ i →
      ¬n.dependsOn i j = true → R c i → R (c.modifyDeclaration j f) i)
    (h : n.order.foldlM step n = .ok m) : m.bare = n.bare ∧ I m ∧ ∀ i ∈ n.order, R m i := by
  have hsub : ∀ i ∈ n.order, i ∈ n.positions := fun i => hn.perm.mem_iff.1
  obtain ⟨hpair, -⟩ := hn.executable.not_dependsOn hsub
  have hnodup : n.order.Nodup := hn.perm.nodup_iff.2 List.nodup_range
  obtain ⟨done, hdone, hbare, hI, -, hR⟩ := foldlM_invariant
    (fun rest c => ∃ done, n.order = done ++ rest ∧ c.bare = n.bare ∧ I c ∧
      (∀ i ∈ rest, c.declaration? i = n.declaration? i) ∧ ∀ i ∈ done, R c i)
    (fun i rest c c' ⟨done, hdone, hbare, hI, hrest, hR⟩ hok => by
      obtain ⟨f, hf, rfl, hI, hRi⟩ := hstep c i c' hbare (hrest i List.mem_cons_self)
        (hdone ▸ by simp) hI hok
      rw [hdone] at hnodup hpair
      have hlater : i ∉ rest := (List.nodup_cons.1 (List.nodup_append.1 hnodup).2.1).1
      refine ⟨done ++ [i], by simpa using hdone, ?_, hI, fun j hj => ?_, fun j hj => ?_⟩
      · rw [bare_modifyDeclaration hf, hbare]
      · rw [declaration?_modifyDeclaration_of_ne _ (fun h : i = j => hlater (h ▸ hj))]
        exact hrest j (List.mem_cons_of_mem i hj)
      · rcases List.mem_append.1 hj with hj | hj
        · have hne : i ≠ j := fun h => (List.nodup_append.1 hnodup).2.2 j hj i (by simp) h.symm
          exact hkeeps c j i f hbare hf hne
            ((List.pairwise_append.1 hpair).2.2 j hj i (by simp)) (hR j hj)
        · rw [List.mem_singleton.1 hj]
          exact hRi)
    ⟨[], rfl, rfl, hI, fun _ _ => rfl, by simp⟩ h
  rw [List.append_nil] at hdone
  exact ⟨hbare, hI, hdone ▸ hR⟩

end Network

end Blockwork
