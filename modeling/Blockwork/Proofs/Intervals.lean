import Blockwork.Proofs.Multiplicity
import Mathlib.Data.Set.Insert

/-!
# The sets that intervals stand for

`counts` is the set of all numbers of occurrences that an interval allows. The intersection of two
intervals stands for the intersection of their sets, dividing by `n` leaves the numbers whose
`n`-fold was there, and the tests for empty intervals and for those with one count tell what they
say.

Moving an interval moves its set (`moved`), without what would be negative, exactly if words hold the
moved bounds (`counts_shift_iff`). Beyond the largest word there is no bound: what is moved there
loses its upper bound, and the result is the narrowest interval that holds all of it
(`counts_shift_subset`).
-/

namespace Blockwork

namespace Multiplicity

variable {m o : Multiplicity} {d : Int} {k : Nat}

/-- The numbers of occurrences the interval allows. -/
def counts (m : Multiplicity) : Set Nat :=
  {k | m.Allows k}

/-- The counts of the interval with `d` added, as far as they are not negative. -/
def moved (m : Multiplicity) (d : Int) : Set Nat :=
  {k | ∃ c ∈ m.counts, (c : Int) + d = k}

/-- Words hold the bounds of the interval moved by `d`. An upper bound has to stay below the word
that stands for none. -/
def Fits (m : Multiplicity) (d : Int) : Prop :=
  if m.isUnbounded then m.lower.toNat + d ≤ infinity.toNat else m.upper.toNat + d < infinity.toNat

@[simp] theorem mem_counts : k ∈ m.counts ↔ m.Allows k :=
  Iff.rfl

/-- What is moved lies between the moved bounds. -/
theorem mem_moved : k ∈ m.moved d ↔
    m.lower.toNat + d ≤ k ∧ (m.isUnbounded = true ∨ k ≤ m.upper.toNat + d) := by
  simp only [moved, mem_counts, Allows, Set.mem_ofPred_eq]
  constructor
  · rintro ⟨c, ⟨hlower, hupper⟩, hc⟩
    exact ⟨by omega, hupper.imp_right fun _ => by omega⟩
  · rintro ⟨hlower, hupper⟩
    exact ⟨(k - d).toNat, ⟨by omega, hupper.imp_right fun _ => by omega⟩, by omega⟩

/-! ## Moving -/

/-- Moving loses no count. -/
theorem moved_subset (m : Multiplicity) (d : Int) : m.moved d ⊆ (m.shift d).counts := by
  intro k hk
  rw [mem_moved] at hk
  rw [mem_counts, allows_shift_iff]
  exact ⟨by omega, hk.2.imp_right Or.inr⟩

/-- Moving adds no count exactly if words hold the moved bounds. -/
theorem counts_shift_iff : (m.shift d).counts = m.moved d ↔ m.Fits d := by
  have hl := m.lower.toNat_lt
  have hinf : infinity.toNat = 4294967295 := rfl
  simp only [Set.ext_iff, mem_counts, mem_moved, allows_shift_iff]
  unfold Fits
  rw [hinf]
  split
  · rename_i hb
    simp only [hb, true_or, and_true]
    constructor
    · intro h
      have := h 4294967295
      omega
    · intro hfits k
      omega
  · rename_i hb
    simp only [hb, false_or, Bool.false_eq_true]
    constructor
    · -- An interval without upper bound allows more than any bound.
      intro h
      have := h (max (m.upper.toNat + d + 1).toNat 4294967295)
      omega
    · intro hfits k
      omega

/-- Moving down is exact, and the only way the inference of multiplicities moves an interval. -/
theorem counts_shift_of_nonpos (hd : d ≤ 0) : (m.shift d).counts = m.moved d := by
  have hl := m.lower.toNat_lt
  have hu := m.upper.toNat_lt
  have hinf : infinity.toNat = 4294967295 := rfl
  rw [counts_shift_iff]
  unfold Fits
  rw [hinf]
  split
  · omega
  · rename_i hb
    rw [isUnbounded_iff] at hb
    omega

/-- An interval that allows a count beyond the words allows all of them. -/
theorem allows_beyond {c : Nat} (hc : m.Allows c) (hlarge : 4294967295 ≤ c)
    (hk : 4294967295 ≤ k) : m.Allows k := by
  have hl := m.lower.toNat_lt
  have hu := m.upper.toNat_lt
  rw [allows_iff] at hc ⊢
  omega

/-- Where moving adds a count, something was moved beyond the words. -/
theorem exists_moved_beyond (hm : m.counts.Nonempty) (hk : k ∈ (m.shift d).counts)
    (hadded : k ∉ m.moved d) : 4294967295 ≤ k ∧ ∃ c ∈ m.moved d, 4294967295 ≤ c := by
  obtain ⟨c, hlower, hupper⟩ := hm
  simp only [mem_moved, mem_counts, allows_shift_iff] at hk hadded ⊢
  rcases Int.lt_or_le k (m.lower.toNat + d) with hlt | hle
  · exact ⟨by omega, (m.lower.toNat + d).toNat, ⟨by omega, hupper.imp_right fun _ => by omega⟩,
      by omega⟩
  · obtain ⟨hbounded, hlt⟩ := not_or.1 (not_and.1 hadded hle)
    have hupper := hupper.resolve_left hbounded
    have hlarge := hk.2.resolve_left hbounded
    exact ⟨by omega, (m.upper.toNat + d).toNat, ⟨by omega, .inr (by omega)⟩, by omega⟩

/-- What is not empty is moved to the narrowest interval that holds all of it. -/
theorem counts_shift_subset (hm : m.counts.Nonempty) {q : Multiplicity}
    (hq : m.moved d ⊆ q.counts) : (m.shift d).counts ⊆ q.counts := by
  intro k hk
  by_cases hmoved : k ∈ m.moved d
  · exact hq hmoved
  · obtain ⟨hlarge, c, hc, hbeyond⟩ := exists_moved_beyond hm hk hmoved
    exact allows_beyond (hq hc) hbeyond hlarge

/-- A moved interval has no upper bound if it had none before, or if words cannot hold it. -/
theorem isUnbounded_shift : (m.shift d).isUnbounded = true ↔
    m.isUnbounded = true ∨ infinity.toNat ≤ m.upper.toNat + d := by
  have hinf : infinity.toNat = 4294967295 := rfl
  rw [isUnbounded_iff, (m.bounds_shift d).2, hinf]
  cases hb : m.isUnbounded with
  | true => simp
  | false =>
    simp only [Bool.false_eq_true, if_false, false_or]
    omega

/-! ## The other operations -/

theorem counts_intersect (m o : Multiplicity) : (m.intersect o).counts = m.counts ∩ o.counts :=
  Set.ext fun _ => allows_intersect

/-- Two intervals have an upper bound in common unless neither has one. -/
theorem isUnbounded_intersect :
    (m.intersect o).isUnbounded = true ↔ m.isUnbounded = true ∧ o.isUnbounded = true := by
  have := m.upper.toNat_lt
  have := o.upper.toNat_lt
  simp only [isUnbounded_iff, intersect, toNat_min]
  omega

theorem isUnbounded_divide? {n : UInt32} {q : Multiplicity} (h : m.divide? n = some q) :
    q.isUnbounded = true ↔ m.isUnbounded = true := by
  have hu := m.upper.toNat_lt
  unfold divide? at h
  split at h
  · simp at h
  · obtain rfl := Option.some.inj h
    simp only [isUnbounded_iff]
    split
    · simp_all [infinity]
    · rename_i hb
      have := Nat.div_le_self m.upper.toNat n.toNat
      rw [UInt32.toNat_div]
      omega

theorem isEmpty_iff : m.isEmpty = true ↔ m.counts = ∅ := by
  rw [← Set.not_nonempty_iff_eq_empty, Set.Nonempty]
  simp only [mem_counts, exists_allows_iff, Bool.not_eq_false]

theorem isSingleton_iff : m.isSingleton = true ↔ ∃ k, m.counts = {k} := by
  have hu := m.upper.toNat_lt
  rw [isSingleton, Bool.and_eq_true, beq_iff_eq, ← UInt32.toNat_inj, Bool.not_eq_true',
    Bool.eq_false_iff, ne_eq, isUnbounded_iff]
  simp only [Set.ext_iff, mem_counts, allows_iff, Set.mem_singleton_iff]
  constructor
  · intro h
    exact ⟨m.lower.toNat, fun k => by omega⟩
  · rintro ⟨k, hk⟩
    have := hk k
    have := hk (k + 1)
    have := hk m.lower.toNat
    have := hk m.upper.toNat
    omega

/-! ## All of them -/

/-- What every operation does to the set of counts. Only moving up may miss the set it is named for,
where words do not hold the moved bounds, and only there does a finite interval lose its upper
bound. -/
theorem operations_on_counts (m o : Multiplicity) (d : Int) {n : UInt32} (hn : 0 < n) :
    ((m.shift d).counts = m.moved d ↔ m.Fits d) ∧
    (d ≤ 0 → (m.shift d).counts = m.moved d) ∧
    m.moved d ⊆ (m.shift d).counts ∧
    (m.counts.Nonempty → ∀ q : Multiplicity, m.moved d ⊆ q.counts → (m.shift d).counts ⊆ q.counts) ∧
    ((m.shift d).isUnbounded = true ↔
      m.isUnbounded = true ∨ infinity.toNat ≤ m.upper.toNat + d) ∧
    (∃ q, m.divide? n = some q ∧ (∀ k, k ∈ q.counts ↔ n.toNat * k ∈ m.counts) ∧
      (q.isUnbounded = true ↔ m.isUnbounded = true)) ∧
    (m.intersect o).counts = m.counts ∩ o.counts ∧
    ((m.intersect o).isUnbounded = true ↔ m.isUnbounded = true ∧ o.isUnbounded = true) ∧
    (m.isEmpty = true ↔ m.counts = ∅) ∧
    (m.isSingleton = true ↔ ∃ k, m.counts = {k}) := by
  obtain ⟨q, hq, hcounts⟩ := m.exists_divide? hn
  refine ⟨counts_shift_iff, counts_shift_of_nonpos, m.moved_subset d,
    fun hm q => counts_shift_subset hm, isUnbounded_shift, ⟨q, hq, hcounts, isUnbounded_divide? hq⟩, counts_intersect m o,
    isUnbounded_intersect, isEmpty_iff, isSingleton_iff⟩

/-- From three to seven occurrences, of which two are supplied elsewhere, or two at a time. -/
theorem operations_on_counts_three_to_seven :
    (Multiplicity.shift ⟨3, 7⟩ (-2)).counts = Multiplicity.moved ⟨3, 7⟩ (-2) ∧
    (∃ q, Multiplicity.divide? ⟨3, 7⟩ 2 = some q ∧ 2 ∈ q.counts ∧ 4 ∉ q.counts) ∧
    (Multiplicity.shift ⟨3, 7⟩ (-2)).isUnbounded = false := by
  obtain ⟨-, hdown, -, -, hunbounded, ⟨q, hq, hcounts, -⟩, -⟩ :=
    operations_on_counts ⟨3, 7⟩ any (-2) (show (0 : UInt32) < 2 by decide)
  refine ⟨hdown (by decide), ⟨q, hq, ?_, ?_⟩, ?_⟩
  · rw [hcounts, mem_counts, allows_iff]
    decide
  · rw [hcounts, mem_counts, allows_iff]
    decide
  · rw [Bool.eq_false_iff, ne_eq, hunbounded]
    decide

/-- The greatest finite upper bound has no word above it but the one for no bound, so moving it
up by one makes the interval unbounded. -/
theorem shift_beyond_words :
    Multiplicity.isUnbounded ⟨0, 4294967294⟩ = false ∧
    (Multiplicity.shift ⟨0, 4294967294⟩ 1).isUnbounded = true ∧
    (Multiplicity.shift ⟨0, 4294967294⟩ 1).counts ≠ Multiplicity.moved ⟨0, 4294967294⟩ 1 := by
  refine ⟨by decide, by decide, ?_⟩
  rw [ne_eq, counts_shift_iff]
  unfold Fits
  decide

end Multiplicity

end Blockwork
