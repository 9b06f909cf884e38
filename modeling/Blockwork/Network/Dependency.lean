import Blockwork.Network.Basic

/-!
# Dependencies and execution order

A declaration depends on the declarations whose outputs its attributes refer to. The
execution order puts every declaration after those it depends on: at each step, of all
declarations that depend on executed ones only, the one with the smallest name goes next.
If none is left to choose, the remaining ones hold a cycle, and `cycleAmong` finds one by
following dependencies.
-/

namespace Blockwork

namespace Declaration

/-- The declarations whose outputs the attributes refer to, once for each reference. -/
def referredTo (d : Declaration) : List Nat :=
  d.slots.filterMap fun (_, s) =>
    match s.binding with
    | .reference (.output id) => some id.declaration
    | _ => none

end Declaration

namespace Network

variable (n : Network)

/-- Whether an attribute of one declaration refers to an output of another. -/
def dependsOn (d e : Nat) : Bool :=
  (n.declaration? d).any fun decl => decl.referredTo.contains e

/-- The positions of the declarations. -/
def positions : List Nat :=
  List.range n.declarations.length

/-- The declarations a declaration depends on, in the order of the draft. -/
def dependencies (d : Nat) : List Nat :=
  let referred := ((n.declaration? d).map Declaration.referredTo).getD []
  n.positions.filter referred.contains

/-- The declarations that depend on a declaration, in the order of the draft. -/
def dependents (e : Nat) : List Nat :=
  n.positions.filter fun d => n.dependsOn d e

/-! ## The order of names -/

/-- Whether a declaration comes before another by name, or by position if the names are
the same. -/
def before (d e : Nat) : Bool :=
  let x := n.declarationName d
  let y := n.declarationName e
  x < y || (x == y && d < e)

/-- The one of two declarations that comes first. -/
def earlier (d e : Nat) : Nat :=
  if n.before e d then e else d

/-- The declaration that comes first. -/
def first? : List Nat → Option Nat
  | [] => none
  | d :: ds => some (ds.foldl n.earlier d)

theorem first?_mem {l : List Nat} {d : Nat} (h : n.first? l = some d) : d ∈ l := by
  cases l with
  | nil => simp [first?] at h
  | cons a l =>
    simp only [first?, Option.some.injEq] at h
    subst h
    suffices ∀ (l : List Nat) (a : Nat), l.foldl n.earlier a ∈ a :: l from this l a
    intro l
    induction l with
    | nil => simp
    | cons b l ih =>
      intro a
      have := ih (n.earlier a b)
      simp only [List.foldl_cons, List.mem_cons] at this ⊢
      rcases this with h | h
      · rw [h]
        unfold earlier
        split <;> simp
      · exact Or.inr (Or.inr h)

theorem length_erase_lt {l : List Nat} {d : Nat} (h : d ∈ l) :
    (l.erase d).length < l.length := by
  rw [List.length_erase_of_mem h]
  have := List.length_pos_of_mem h
  omega

end Network

/-! ## Execution order -/

/-- The state of the sorting: how many dependencies each declaration still waits for, and
the declarations that wait for none and are not yet executed. -/
structure Schedule where
  /-- The number of dependencies still to be executed, for each declaration. -/
  pending : List Nat
  /-- The declarations that are ready. -/
  ready : List Nat
deriving DecidableEq, Repr

namespace Schedule

/-- One dependency less to wait for. A declaration that waits for none is ready. -/
def release (s : Schedule) (d : Nat) : Except Fault Schedule :=
  match s.pending[d]? with
  | none => .error (.breach .outOfRange)
  | some 0 => .error (.breach .countBelowZero)
  | some (k + 1) => .ok ⟨s.pending.set d k, if k = 0 then s.ready.insert d else s.ready⟩

/-- The schedule without a ready declaration. -/
def take (s : Schedule) (d : Nat) : Schedule :=
  { s with ready := s.ready.erase d }

/-- What is left to do: dependencies that are waited for and declarations that are ready. -/
def work (s : Schedule) : Nat :=
  s.pending.foldr Nat.add 0 + s.ready.length

theorem foldr_set_add {l : List Nat} {i m : Nat} (h : l[i]? = some m) (k : Nat) :
    (l.set i k).foldr Nat.add 0 + m = l.foldr Nat.add 0 + k := by
  induction l generalizing i with
  | nil => simp at h
  | cons x l ih =>
    cases i with
    | zero =>
      obtain rfl : x = m := by simpa using h
      simp only [List.set_cons_zero, List.foldr_cons, Nat.add_eq]
      omega
    | succ i =>
      have hrest := ih (i := i) (by simpa using h)
      simp only [List.set_cons_succ, List.foldr_cons, Nat.add_eq]
      omega

theorem work_release_le {s t : Schedule} {d : Nat} (h : s.release d = .ok t) :
    t.work ≤ s.work := by
  unfold release at h
  split at h
  · cases h
  · cases h
  · rename_i k hk
    obtain rfl := Except.ok.inj h
    have hsum := foldr_set_add hk k
    have hready : (if k = 0 then s.ready.insert d else s.ready).length ≤ s.ready.length + 1 := by
      split
      · rw [List.length_insert]
        split <;> omega
      · omega
    simp only [work]
    omega

theorem work_foldlM_release_le {ds : List Nat} :
    ∀ {s t : Schedule}, ds.foldlM release s = .ok t → t.work ≤ s.work := by
  induction ds with
  | nil =>
    intro s t h
    obtain rfl : s = t := Except.ok.inj h
    exact Nat.le_refl _
  | cons d ds ih =>
    intro s t h
    rw [List.foldlM_cons] at h
    cases hd : s.release d with
    | error f =>
      rw [hd] at h
      cases h
    | ok u =>
      rw [hd] at h
      exact Nat.le_trans (ih h) (work_release_le hd)

theorem work_take_lt {s : Schedule} {d : Nat} (h : d ∈ s.ready) : (s.take d).work < s.work :=
  Nat.add_lt_add_left (Network.length_erase_lt h) _

end Schedule

namespace Network

variable (n : Network)

/-- The schedule at the start. -/
def schedule : Schedule where
  pending := n.positions.map fun d => (n.dependencies d).length
  ready := n.positions.filter fun d => (n.dependencies d).isEmpty

/-- The declarations that get ready, in the order in which they are executed: the first of
those that are ready goes next, and those that depend on it wait for one less. -/
def execute (s : Schedule) : Except Fault (List Nat) :=
  match _hd : n.first? s.ready with
  | none => .ok []
  | some d =>
    match _ht : (n.dependents d).foldlM Schedule.release (s.take d) with
    | .error f => .error f
    | .ok t => (execute t).map (d :: ·)
termination_by s.work
decreasing_by
  exact Nat.lt_of_le_of_lt (Schedule.work_foldlM_release_le _ht)
    (Schedule.work_take_lt (n.first?_mem _hd))

/-! ## Cycles -/

/-- The path that follows from `current` the first dependency among `left`, cut to the part
that repeats. `unvisited` holds the declarations of `left` not yet on the path. -/
def followCycle (left unvisited path : List Nat) (current : Nat) : List Nat :=
  if _h : current ∈ unvisited then
    match n.first? ((n.dependencies current).filter left.contains) with
    | none => path ++ [current]
    | some next => followCycle left (unvisited.erase current) (path ++ [current]) next
  else path.dropWhile (· != current)
termination_by unvisited.length
decreasing_by
  exact length_erase_lt _h

/-- A cycle among the declarations that are not in `done`, found from the first of them. -/
def cycleAmong (done : List Nat) : List Nat :=
  let left := n.positions.filter fun d => !done.contains d
  match n.first? left with
  | none => []
  | some d => n.followCycle left left [] d

/-- The declarations in the order of execution. -/
def sort : Except Fault (List Nat) := do
  let order ← n.execute n.schedule
  if order.length < n.declarations.length then
    let cycle := n.cycleAmong order
    let location := (cycle.head?.map n.declarationLocation).getD n.location
    reject (.cyclicDeclarations (cycle.map n.declarationName)) location
  else return order

end Network

end Blockwork
