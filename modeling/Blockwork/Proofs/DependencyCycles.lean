import Blockwork.Proofs.Circles
import Blockwork.Proofs.ExecutionOrder

/-!
# Cycles of declarations

Where the sorting gets stuck, each declaration that is left depends on another one that is left
(`exists_dependency_left`). So following dependencies never comes to a dead end, and as there are
finitely many declarations, it comes back to one on the path (`FollowsTo`). What is reported is the
part of the path from there on: a circle of references, without the way that led to it
(`reported_cycle`).
-/

namespace Blockwork

namespace Network

variable {n : Network}

/-! ## References between declarations -/

/-- An attribute of a declaration refers to an output of another. -/
def RefersTo (n : Network) (d e : Nat) : Prop :=
  ∃ p a s o, n.slot? ⟨d, p, a⟩ = some s ∧ s.binding = .reference (.output ⟨e, o⟩)

theorem refersTo_iff {d e : Nat} : n.RefersTo d e ↔ n.dependsOn d e = true := by
  simp only [RefersTo, dependsOn_iff, Declaration.mem_referredTo, slot?_eq_some]
  constructor
  · rintro ⟨p, a, s, o, ⟨decl, hd, hs⟩, hb⟩
    exact ⟨decl, hd, p, a, s, o, hs, hb⟩
  · rintro ⟨decl, hd, p, a, s, o, hs, hb⟩
    exact ⟨p, a, s, o, ⟨decl, hd, hs⟩, hb⟩

/-- The declarations that are not in the order. -/
def unexecuted (n : Network) (order : List Nat) : List Nat :=
  n.positions.filter fun d => !order.contains d

theorem mem_unexecuted {order : List Nat} {d : Nat} :
    d ∈ n.unexecuted order ↔ d ∈ n.positions ∧ d ∉ order := by
  simp [unexecuted]

/-! ## Names -/

/-- The names of the declarations, in the order of the draft. -/
def names (n : Network) : List String :=
  n.declarations.map Declaration.name

/-- A declaration of one name refers to a declaration of another. -/
def RefersByName (n : Network) (x y : String) : Prop :=
  ∃ d ∈ n.positions, ∃ e ∈ n.positions,
    n.declarationName d = x ∧ n.declarationName e = y ∧ n.RefersTo d e

theorem map_declarationName (n : Network) : n.positions.map n.declarationName = n.names := by
  refine List.ext_getElem (by simp [positions, names]) fun i hi _ => ?_
  have hlt : i < n.declarations.length := by simpa [positions] using hi
  simp [positions, names, declarationName, declaration?, hlt]

/-- Where names are different, they tell declarations apart. -/
theorem declarationName_inj (hnames : n.names.Nodup) {d e : Nat} (hd : d ∈ n.positions)
    (he : e ∈ n.positions) (h : n.declarationName d = n.declarationName e) : d = e := by
  rw [← map_declarationName] at hnames
  exact List.inj_on_of_nodup_map hnames hd he h

theorem nodup_map_declarationName (hnames : n.names.Nodup) {l : List Nat} (hl : l ⊆ n.positions)
    (hnodup : l.Nodup) : (l.map n.declarationName).Nodup :=
  hnodup.map_on fun _ hd _ he => declarationName_inj hnames (hl hd) (hl he)

/-! ## Getting stuck -/

/-- A declaration that is never executed depends on another one that is not. -/
theorem exists_dependency_left {done left : List Nat} {d : Nat} (hd : d ∈ left)
    (hnew : d ∉ n.executeFrom done left) :
    ∃ e ∈ n.dependencies d, e ∉ done ∧ e ∉ n.executeFrom done left := by
  fun_induction executeFrom n done left with
  | case1 done left hnone =>
    have hstuck : ¬n.isReady done d = true := fun hready =>
      not_mem_of_first?_eq_none hnone d (List.mem_filter.2 ⟨hd, hready⟩)
    simpa [isReady] using hstuck
  | case2 done left first hfirst ih =>
    rw [List.mem_cons, not_or] at hnew
    obtain ⟨e, he, hdone, hnot⟩ := ih ((List.mem_erase_of_ne hnew.1).2 hd) hnew.2
    rw [List.mem_cons, not_or] at hdone
    exact ⟨e, he, hdone.2, by simp [hdone.1, hnot]⟩

/-- The first dependency that is left, if a declaration has one that is. -/
theorem exists_first?_dependency {left : List Nat} {d : Nat}
    (h : ∃ e ∈ n.dependencies d, e ∈ left) :
    ∃ next, n.first? ((n.dependencies d).filter left.contains) = some next := by
  obtain ⟨e, he, hleft⟩ := h
  rw [← Option.ne_none_iff_exists']
  exact fun hnone => not_mem_of_first?_eq_none hnone e
    (List.mem_filter.2 ⟨he, List.contains_iff_mem.2 hleft⟩)

/-! ## Following dependencies -/

/-- From `current`, at the end of a path, to the first dependency that is left, and so on until a
declaration is on the path already. The cycle is the path from there on. There is no rule for a
declaration without such a dependency. -/
inductive FollowsTo (n : Network) (left : List Nat) : List Nat → Nat → List Nat → Prop
  | back {path : List Nat} {current : Nat} (h : current ∈ path) :
      FollowsTo n left path current (path.dropWhile (· != current))
  | next {path cycle : List Nat} {current next : Nat} (hnew : current ∉ path)
      (hnext : n.first? ((n.dependencies current).filter left.contains) = some next)
      (h : FollowsTo n left (path ++ [current]) next cycle) : FollowsTo n left path current cycle

/-- Dependencies that are left are followed to a circle of them if each declaration that is left has
one. -/
theorem followCycle_spec {left unvisited path : List Nat} {current : Nat}
    (hstuck : ∀ d ∈ left, ∃ e ∈ n.dependencies d, e ∈ left) (hcurrent : current ∈ left)
    (hsub : path ⊆ left) (hnodup : path.Nodup) (hchain : (path ++ [current]).IsChain n.RefersTo)
    (hunvisited : ∀ d, d ∈ unvisited ↔ d ∈ left ∧ d ∉ path) (hfresh : unvisited.Nodup) :
    n.FollowsTo left path current (n.followCycle left unvisited path current) ∧
      IsCircle n.RefersTo (n.followCycle left unvisited path current) ∧
        n.followCycle left unvisited path current ⊆ left := by
  fun_induction followCycle n left unvisited path current with
  | case1 unvisited path current hmem hnone =>
    obtain ⟨next, hnext⟩ := exists_first?_dependency (hstuck current hcurrent)
    exact nomatch hnone.symm.trans hnext
  | case2 unvisited path current hmem next hnext ih =>
    have hnew : current ∉ path := ((hunvisited current).1 hmem).2
    obtain ⟨hdep, hleft⟩ := List.mem_filter.1 (n.first?_mem hnext)
    have hstep : n.RefersTo current next := refersTo_iff.2 (mem_dependencies.1 hdep).2
    have hsub' : path ++ [current] ⊆ left :=
      List.append_subset.2 ⟨hsub, List.cons_subset.2 ⟨hcurrent, List.nil_subset left⟩⟩
    have hnodup' : (path ++ [current]).Nodup := by
      refine List.nodup_append.2 ⟨hnodup, List.nodup_singleton current, ?_⟩
      rintro d hd e he rfl
      exact hnew (List.mem_singleton.1 he ▸ hd)
    have hchain' : (path ++ [current] ++ [next]).IsChain n.RefersTo := by
      rw [List.append_assoc, List.cons_append, List.nil_append, List.isChain_append_cons_cons]
      exact ⟨hchain, hstep, List.isChain_singleton next⟩
    have hunvisited' : ∀ d, d ∈ unvisited.erase current ↔ d ∈ left ∧ d ∉ path ++ [current] := by
      intro d
      rw [hfresh.mem_erase_iff, hunvisited, List.mem_append, List.mem_singleton]
      tauto
    obtain ⟨hfollows, hcircle, hin⟩ := ih (by simpa using hleft) hsub' hnodup' hchain' hunvisited'
      (hfresh.erase current)
    exact ⟨.next hnew hnext hfollows, hcircle, hin⟩
  | case3 unvisited path current hmem =>
    have hback : current ∈ path := by
      by_contra h
      exact hmem ((hunvisited current).2 ⟨hcurrent, h⟩)
    exact ⟨.back hback, .of_path hchain hnodup hback,
      fun d hd => hsub ((List.dropWhile_sublist _).subset hd)⟩

/-- Among the declarations that are left when no more can be executed, dependencies are followed to
a circle from the first of them. -/
theorem cycleAmong_spec (h : (n.executeFrom [] n.positions).length < n.declarations.length) :
    ∃ first, n.first? (n.unexecuted (n.executeFrom [] n.positions)) = some first ∧
      n.FollowsTo (n.unexecuted (n.executeFrom [] n.positions)) [] first
        (n.cycleAmong (n.executeFrom [] n.positions)) ∧
      IsCircle n.RefersTo (n.cycleAmong (n.executeFrom [] n.positions)) ∧
      n.cycleAmong (n.executeFrom [] n.positions) ⊆
        n.unexecuted (n.executeFrom [] n.positions) := by
  generalize horder : n.executeFrom [] n.positions = order at h
  have hstuck : ∀ d ∈ n.unexecuted order, ∃ e ∈ n.dependencies d, e ∈ n.unexecuted order := by
    intro d hd
    obtain ⟨hpos, hnew⟩ := mem_unexecuted.1 hd
    subst horder
    obtain ⟨e, he, -, hnot⟩ := exists_dependency_left hpos hnew
    exact ⟨e, he, mem_unexecuted.2 ⟨(mem_dependencies.1 he).1, hnot⟩⟩
  have hsome : n.first? (n.unexecuted order) ≠ none := by
    intro hnone
    -- If none were left, the order would hold all declarations.
    have hall : n.positions ⊆ order := fun d hd => by
      by_contra hnew
      exact not_mem_of_first?_eq_none hnone d (mem_unexecuted.2 ⟨hd, hnew⟩)
    have hle := (List.nodup_range.subperm hall).length_le
    rw [List.length_range] at hle
    omega
  obtain ⟨first, hfirst⟩ := Option.ne_none_iff_exists'.1 hsome
  have hunvisited : ∀ d, d ∈ n.unexecuted order ↔ d ∈ n.unexecuted order ∧ d ∉ [] := by simp
  have hspec := followCycle_spec hstuck (n.first?_mem hfirst) (List.nil_subset _) List.nodup_nil
    (List.isChain_singleton first) hunvisited (List.nodup_range.filter _)
  have hcycle : n.cycleAmong order =
      n.followCycle (n.unexecuted order) (n.unexecuted order) [] first := by
    have hleft : n.first? (n.positions.filter fun d => !order.contains d) = some first := hfirst
    unfold cycleAmong
    simp only [hleft]
    rfl
  rw [hcycle]
  exact ⟨first, hfirst, hspec⟩

/-! ## The report -/

/-- A failing sort reports a circle of references between declarations of different names. All its
members are among the declarations that cannot be executed, and it is found by following
dependencies from the first of these, without coming to a dead end. -/
theorem reported_cycle (hnames : n.names.Nodup) {f : Fault} (h : n.sort = .error f) :
    ∃ order members d, n.execute n.schedule = .ok order ∧ f = .rejected d ∧
      d.kind = .cyclicDependencies ∧ d.cycle = members.map n.declarationName ∧
      IsCircle n.RefersByName d.cycle ∧ members ⊆ n.unexecuted order ∧
      ∃ first, n.first? (n.unexecuted order) = some first ∧
        n.FollowsTo (n.unexecuted order) [] first members := by
  rw [sort_eq] at h
  split at h
  · rename_i hlength
    obtain ⟨first, hfirst, hfollows, hcircle, hsub⟩ := cycleAmong_spec hlength
    have hpositions : n.cycleAmong (n.executeFrom [] n.positions) ⊆ n.positions := fun d hd =>
      (mem_unexecuted.1 (hsub hd)).1
    refine ⟨_, _, _, n.execute_schedule, (Except.error.inj h).symm, rfl, rfl, ?_, hsub, first,
      hfirst, hfollows⟩
    refine hcircle.map_on (fun d hd e he hde => ?_)
      (nodup_map_declarationName hnames hpositions hcircle.nodup)
    exact ⟨d, hpositions hd, e, hpositions he, rfl, rfl, hde⟩
  · cases h

/-! ### A tail

A declaration refers to one of two that refer to each other, and a fourth refers to none. -/

/-- A declaration with one attribute for each declaration it refers to. -/
def user (name : String) (referred : List Nat) : Declaration where
  name
  specification := ⟨"Some", false,
    ⟨[⟨"in", .any, [⟨"value", ClassType.object, none, [], none⟩], false, none⟩],
      [⟨"out", ClassType.object, none⟩]⟩⟩
  location := .unknown
  doc := none
  parameters := referred.map fun e =>
    ⟨"in", 0, [⟨"value", none, .reference (.output ⟨e, 0⟩), ClassType.object, none, []⟩]⟩
  outputs := [⟨"out", s!"@{name}.out", ClassType.object, none, [], none⟩]

/-- A block of such declarations. -/
def ofUsers (declarations : List Declaration) : Network where
  name := "b"
  location := .unknown
  doc := none
  types := .root
  declarations
  order := List.range declarations.length
  params := []
  outputs := []

def tail : Network :=
  ofUsers [user "a" [1], user "x" [2, 2], user "y" [1], user "z" []]

/-- The tail is not reported. -/
theorem reported_cycle_tail : ∃ d, tail.names.Nodup ∧ tail.sort = .error (.rejected d) ∧
    d.cycle = ["x", "y"] ∧ IsCircle tail.RefersByName d.cycle := by
  have hnames : tail.names.Nodup := by decide
  have horder : tail.executeFrom [] tail.positions = [3] := by decide +kernel
  have hcycle : (tail.cycleReport [3]).cycle = ["x", "y"] := by decide +kernel
  have hsort : tail.sort = .error (.rejected (tail.cycleReport [3])) := by
    rw [sort_eq, horder]
    rfl
  obtain ⟨-, -, d, -, hd, -, -, hcircle, -⟩ := reported_cycle hnames hsort
  obtain rfl := Fault.rejected.inj hd
  exact ⟨_, hnames, hsort, hcycle, hcircle⟩

end Network

end Blockwork
