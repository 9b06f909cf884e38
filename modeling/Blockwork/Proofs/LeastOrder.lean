import Blockwork.Proofs.DependencyCycles
import Mathlib.Data.List.Lex

/-!
# The least execution order

The sorting finds an order just if no declaration refers to itself, directly or through others. Of
all orders in which each declaration comes after those it refers to, its names come first
(`executeFrom_le`): at each step the declarations that may go next are those that are ready, and
the first of them does. So the order does not depend on where the declarations stand in the draft.
-/

namespace Blockwork

open Relation

namespace Network

variable {n m : Network}

/-- All declarations, each after those it refers to. -/
structure Ordered (n : Network) (order : List Nat) : Prop where
  perm : order.Perm (List.range n.declarations.length)
  after : ∀ (i j d e : Nat), order[i]? = some d → order[j]? = some e → n.RefersTo d e → j < i

namespace Ordered

variable {order : List Nat}

theorem mem_iff (h : n.Ordered order) {d : Nat} : d ∈ order ↔ d ∈ n.positions :=
  h.perm.mem_iff

theorem pairwise (h : n.Ordered order) : order.Pairwise fun d e => ¬n.RefersTo d e := by
  rw [List.pairwise_iff_getElem]
  intro i j hi hj hij hrefers
  have hlt := h.after i j _ _ (List.getElem?_eq_getElem hi) (List.getElem?_eq_getElem hj) hrefers
  omega

theorem irrefl (h : n.Ordered order) {d : Nat} (hd : d ∈ n.positions) : ¬n.RefersTo d d := by
  obtain ⟨i, hi⟩ := List.mem_iff_getElem?.1 (h.mem_iff.2 hd)
  exact fun hrefers => lt_irrefl i (h.after i i d d hi hi hrefers)

end Ordered

theorem mem_positions_of_refersTo {d e : Nat} (h : n.RefersTo d e) : d ∈ n.positions :=
  mem_positions_of_dependsOn (refersTo_iff.1 h)

/-- Along references one only comes to earlier declarations of an order. -/
theorem Ordered.lt_of_transGen {order : List Nat} (h : n.Ordered order) {d e : Nat}
    (hpath : TransGen n.RefersTo d e) :
    ∀ i j : Nat, order[i]? = some d → order[j]? = some e → j < i := by
  induction hpath with
  | single hrefers => exact fun i j hi hj => h.after i j _ _ hi hj hrefers
  | @tail b e _ hrefers ih =>
    intro i j hi hj
    obtain ⟨k, hk⟩ := List.mem_iff_getElem?.1 (h.mem_iff.2 (mem_positions_of_refersTo hrefers))
    exact (h.after k j b e hk hj hrefers).trans (ih i k hi hk)

theorem Ordered.acyclic {order : List Nat} (h : n.Ordered order) (d : Nat) :
    ¬TransGen n.RefersTo d d := by
  intro hcycle
  obtain ⟨e, hrefers, -⟩ := TransGen.head'_iff.1 hcycle
  obtain ⟨i, hi⟩ := List.mem_iff_getElem?.1 (h.mem_iff.2 (mem_positions_of_refersTo hrefers))
  exact lt_irrefl i (h.lt_of_transGen hcycle i i hi hi)

/-- A list in which no declaration refers to itself or to a later one can be executed in its order,
if all others are executed. -/
theorem executable_of_pairwise {order : List Nat} :
    ∀ {done : List Nat}, order.Nodup → (∀ d ∈ order, d ∉ done) →
      (∀ d ∈ n.positions, d ∈ done ∨ d ∈ order) →
      order.Pairwise (fun d e => ¬n.RefersTo d e) → (∀ d ∈ order, ¬n.RefersTo d d) →
      n.Executable done order := by
  induction order with
  | nil => exact fun _ _ _ _ _ => trivial
  | cons d ds ih =>
    intro done hnodup hnew hall hpair hself
    obtain ⟨hd, hds⟩ := List.nodup_cons.1 hnodup
    obtain ⟨hlater, hpair⟩ := List.pairwise_cons.1 hpair
    refine ⟨hnew d List.mem_cons_self, fun e he => ?_, ih hds (fun e he => ?_) (fun e he => ?_)
      hpair fun e he => hself e (List.mem_cons_of_mem d he)⟩
    · obtain ⟨hpos, hdep⟩ := mem_dependencies.1 he
      have hrefers := refersTo_iff.2 hdep
      rcases hall e hpos with hdone | hleft
      · exact hdone
      · rcases List.mem_cons.1 hleft with rfl | hleft
        · exact absurd hrefers (hself e List.mem_cons_self)
        · exact absurd hrefers (hlater e hleft)
    · rw [List.mem_cons, not_or]
      exact ⟨fun h => hd (h ▸ he), hnew e (List.mem_cons_of_mem d he)⟩
    · rcases hall e he with hdone | hleft
      · exact .inl (List.mem_cons_of_mem d hdone)
      · rcases List.mem_cons.1 hleft with rfl | hleft
        · exact .inl List.mem_cons_self
        · exact .inr hleft

theorem Ordered.executable {order : List Nat} (h : n.Ordered order) : n.Executable [] order :=
  executable_of_pairwise (h.perm.nodup_iff.2 List.nodup_range) (by simp)
    (fun _ hd => .inr (h.mem_iff.2 hd)) h.pairwise fun _ hd => h.irrefl (h.mem_iff.1 hd)

/-- The order that is found puts each declaration after those it refers to. -/
theorem ordered_of_sort {order : List Nat} (h : n.sort = .ok order) : n.Ordered order := by
  have hforward := forward_of_sort h
  obtain ⟨hpair, hself⟩ := hforward.executable.not_dependsOn fun d hd => hforward.perm.mem_iff.1 hd
  rw [List.pairwise_iff_getElem] at hpair
  refine ⟨hforward.perm, fun i j d e hi hj hrefers => ?_⟩
  obtain ⟨hi', rfl⟩ := List.getElem?_eq_some_iff.1 hi
  obtain ⟨hj', rfl⟩ := List.getElem?_eq_some_iff.1 hj
  have hdep := refersTo_iff.1 hrefers
  rcases Nat.lt_trichotomy j i with hlt | rfl | hlt
  · exact hlt
  · exact absurd hdep (hself _ (List.getElem_mem hj'))
  · exact absurd hdep (hpair i j hi' hj' hlt)

/-- An order is found if no declaration refers to itself, directly or through others. -/
theorem exists_sort (h : ∀ d, ¬TransGen n.RefersTo d d) : ∃ order, n.sort = .ok order := by
  rw [sort_eq]
  split
  · rename_i hlength
    obtain ⟨-, -, -, hcircle, -⟩ := cycleAmong_spec hlength
    obtain ⟨d, hd⟩ := List.exists_mem_of_ne_nil _ hcircle.ne_nil
    exact absurd (hcircle.transGen hd hd) (h d)
  · exact ⟨_, rfl⟩

/-! ## The least order -/

/-- The names of the order without counters come first among those of all orders that can be
executed. -/
theorem executeFrom_le (hnames : n.names.Nodup) {done left order : List Nat}
    (hleft : left ⊆ n.positions) (hperm : order.Perm left) (hexec : n.Executable done order) :
    (n.executeFrom done left).map n.declarationName ≤ order.map n.declarationName := by
  -- The declaration an order starts with is one of those that are ready.
  have hready : ∀ {done left ds : List Nat} {e : Nat}, (e :: ds).Perm left →
      n.Executable done (e :: ds) → e ∈ left.filter (n.isReady done) := fun hperm hexec =>
    List.mem_filter.2 ⟨hperm.subset List.mem_cons_self, by simpa [isReady] using hexec.2.1⟩
  fun_induction executeFrom n done left generalizing order with
  | case1 done left hnone =>
    cases order with
    | nil => exact le_refl _
    | cons e ds => exact absurd (hready hperm hexec) (not_mem_of_first?_eq_none hnone e)
  | case2 done left d hd ih =>
    have hmem := (List.mem_filter.1 (n.first?_mem hd)).1
    cases order with
    | nil => exact absurd hmem (hperm.nil_eq ▸ List.not_mem_nil)
    | cons e ds =>
      have hrank := (first?_eq_some_iff.1 hd).2 e (hready hperm hexec)
      have he := hperm.subset List.mem_cons_self
      rw [List.map_cons, List.map_cons]
      rcases lt_or_eq_of_le (Prod.Lex.monotone_fst _ _ hrank) with hlt | heq
      · exact le_of_lt (List.Lex.rel hlt)
      · obtain rfl := declarationName_inj hnames (hleft hmem) (hleft he) heq
        refine List.cons_le_cons _ (ih ?_ ?_ hexec.2.2)
        · exact fun x hx => hleft (List.mem_of_mem_erase hx)
        · exact List.cons_perm_iff_perm_erase.1 hperm |>.2

/-! ## Independence of the draft -/

/-- Declarations of the same names that refer to each other by name alike, wherever they stand. -/
structure SameUpToOrder (n m : Network) : Prop where
  names : m.names.Perm n.names
  refers : ∀ x y, m.RefersByName x y ↔ n.RefersByName x y

theorem SameUpToOrder.symm (h : n.SameUpToOrder m) : m.SameUpToOrder n :=
  ⟨h.names.symm, fun x y => (h.refers x y).symm⟩

/-- The names of declarations with those of the declarations they refer to. -/
def namedReferences (n : Network) : List (String × String) :=
  n.positions.flatMap fun d =>
    (n.dependencies d).map fun e => (n.declarationName d, n.declarationName e)

theorem mem_namedReferences {x y : String} :
    (x, y) ∈ n.namedReferences ↔ n.RefersByName x y := by
  simp only [namedReferences, RefersByName, List.mem_flatMap, List.mem_map, mem_dependencies,
    refersTo_iff, Prod.mk.injEq]
  constructor
  · rintro ⟨d, hd, e, ⟨he, hde⟩, hx, hy⟩
    exact ⟨d, hd, e, he, hx, hy, hde⟩
  · rintro ⟨d, hd, e, he, hx, hy, hde⟩
    exact ⟨d, hd, e, ⟨he, hde⟩, hx, hy⟩

theorem sameUpToOrder_iff : n.SameUpToOrder m ↔
    m.names.Perm n.names ∧ m.namedReferences ⊆ n.namedReferences ∧
      n.namedReferences ⊆ m.namedReferences := by
  constructor
  · rintro ⟨hnames, hrefers⟩
    refine ⟨hnames, fun ⟨x, y⟩ h => ?_, fun ⟨x, y⟩ h => ?_⟩
    · exact mem_namedReferences.2 ((hrefers x y).1 (mem_namedReferences.1 h))
    · exact mem_namedReferences.2 ((hrefers x y).2 (mem_namedReferences.1 h))
  · rintro ⟨hnames, hsub, hsub'⟩
    exact ⟨hnames, fun x y => ⟨fun h => mem_namedReferences.1 (hsub (mem_namedReferences.2 h)),
      fun h => mem_namedReferences.1 (hsub' (mem_namedReferences.2 h))⟩⟩

instance (n m : Network) : Decidable (n.SameUpToOrder m) :=
  decidable_of_iff' _ sameUpToOrder_iff

theorem refersByName_iff (hnames : n.names.Nodup) {d e : Nat} (hd : d ∈ n.positions)
    (he : e ∈ n.positions) :
    n.RefersByName (n.declarationName d) (n.declarationName e) ↔ n.RefersTo d e := by
  constructor
  · rintro ⟨d', hd', e', he', hdname, hename, hrefers⟩
    rwa [declarationName_inj hnames hd' hd hdname, declarationName_inj hnames he' he hename]
      at hrefers
  · exact fun h => ⟨d, hd, e, he, rfl, rfl, h⟩

/-- What is at a position of a list of names is the name of the declaration there. -/
theorem exists_of_map_eq {order order' : List Nat}
    (hmap : order'.map m.declarationName = order.map n.declarationName) {i d' : Nat}
    (hd' : order'[i]? = some d') :
    ∃ d, order[i]? = some d ∧ n.declarationName d = m.declarationName d' := by
  have hname := congrArg (fun l => l[i]?) hmap
  simp only [List.getElem?_map, hd', Option.map_some] at hname
  exact Option.map_eq_some_iff.1 hname.symm

/-- The names of an order are those of an order also where the declarations stand elsewhere. -/
theorem Ordered.exists_of_same (hnames : n.names.Nodup) (hsame : n.SameUpToOrder m)
    {order : List Nat} (h : n.Ordered order) :
    ∃ order', m.Ordered order' ∧ order'.map m.declarationName = order.map n.declarationName := by
  have hperm : (order.map n.declarationName).Perm (m.positions.map m.declarationName) := by
    rw [map_declarationName]
    exact (map_declarationName n ▸ h.perm.map _).trans hsame.names.symm
  have hall : List.Forall₂ (fun x d => x = m.declarationName d)
      (m.positions.map m.declarationName) m.positions :=
    List.forall₂_map_left_iff.2 (List.forall₂_same.2 fun _ _ => rfl)
  obtain ⟨order', hall', hperm'⟩ := List.perm_comp_forall₂ hperm hall
  have hmap : order.map n.declarationName = order'.map m.declarationName := by
    rw [← List.forall₂_eq_eq_eq, List.forall₂_map_right_iff]
    exact hall'
  refine ⟨order', ⟨hperm', fun i j d' e' hd' he' hrefers => ?_⟩, hmap.symm⟩
  obtain ⟨d, hd, hdname⟩ := exists_of_map_eq hmap.symm hd'
  obtain ⟨e, he, hename⟩ := exists_of_map_eq hmap.symm he'
  have hbyname : m.RefersByName (m.declarationName d') (m.declarationName e') :=
    ⟨d', hperm'.mem_iff.1 (List.mem_of_getElem? hd'), e',
      hperm'.mem_iff.1 (List.mem_of_getElem? he'), rfl, rfl, hrefers⟩
  rw [hsame.refers, ← hdname, ← hename, refersByName_iff hnames
    (h.mem_iff.1 (List.mem_of_getElem? hd)) (h.mem_iff.1 (List.mem_of_getElem? he))] at hbyname
  exact h.after i j d e hd he hbyname

/-- The order that is found is the least of all. -/
theorem least_of_sort (hnames : n.names.Nodup) {order order' : List Nat}
    (h : n.sort = .ok order) (h' : n.Ordered order') :
    order.map n.declarationName ≤ order'.map n.declarationName := by
  rw [sort_eq] at h
  split at h
  · cases h
  · obtain rfl := Except.ok.inj h
    exact executeFrom_le hnames (List.Subset.refl _) h'.perm h'.executable

/-! ## Main result -/

/-- The sorting finds an order just if no declaration refers to itself, directly or through others.
The order then holds all declarations, each after those it refers to, and its names come first among
those of all such orders. They are the same wherever the declarations stand in the draft. -/
theorem sort_least (hnames : n.names.Nodup) :
    ((∃ order, n.sort = .ok order) ↔ ∀ d, ¬TransGen n.RefersTo d d) ∧
    ∀ order, n.sort = .ok order →
      n.Ordered order ∧
      (∀ order', n.Ordered order' →
        order.map n.declarationName ≤ order'.map n.declarationName) ∧
      ∀ m, n.SameUpToOrder m →
        ∃ order', m.sort = .ok order' ∧
          order'.map m.declarationName = order.map n.declarationName := by
  refine ⟨⟨fun ⟨order, h⟩ => (ordered_of_sort h).acyclic, exists_sort⟩, fun order h =>
    ⟨ordered_of_sort h, fun order' => least_of_sort hnames h, fun m hsame => ?_⟩⟩
  have hnames' : m.names.Nodup := hsame.names.nodup_iff.2 hnames
  obtain ⟨u, hu, humap⟩ := (ordered_of_sort h).exists_of_same hnames hsame
  obtain ⟨order', h'⟩ := exists_sort hu.acyclic
  obtain ⟨v, hv, hvmap⟩ := (ordered_of_sort h').exists_of_same hnames' hsame.symm
  -- Each order has the names of one of the other network, than which that network's own is less.
  refine ⟨order', h', le_antisymm ?_ ?_⟩
  · exact (least_of_sort hnames' h' hu).trans_eq humap
  · exact (least_of_sort hnames h hv).trans_eq hvmap

/-! ### A report

A report needs a sum and a count, which both need what is read. -/

def report : Network :=
  ofUsers [user "report" [1, 2], user "sum" [3], user "count" [3, 3], user "read" []]

/-- The same declarations in another order. -/
def reportShuffled : Network :=
  ofUsers [user "read" [], user "count" [0, 0], user "report" [3, 1], user "sum" [0]]

/-- Of the sum and the count the count comes first, in both drafts. -/
theorem sort_least_report : ∃ order order', report.names.Nodup ∧ report.sort = .ok order ∧
    report.Ordered order ∧ order.map report.declarationName = ["read", "count", "sum", "report"] ∧
    (∀ u, report.Ordered u → order.map report.declarationName ≤ u.map report.declarationName) ∧
    report.SameUpToOrder reportShuffled ∧ reportShuffled.sort = .ok order' ∧
    order'.map reportShuffled.declarationName = order.map report.declarationName := by
  have hnames : report.names.Nodup := by decide
  have hsame : report.SameUpToOrder reportShuffled := by decide +kernel
  have hrun : report.sort.toOption = some [3, 2, 1, 0] := by decide +kernel
  have hsort := toOption_eq_some.1 hrun
  obtain ⟨hordered, hleast, hshuffled⟩ := (sort_least hnames).2 _ hsort
  obtain ⟨order', horder', hmap⟩ := hshuffled reportShuffled hsame
  exact ⟨_, order', hnames, hsort, hordered, by decide, hleast, hsame, horder', hmap⟩

end Network

end Blockwork
