import Blockwork.Multiplicity

/-!
# The counts in an interval

`Allows` reads a multiplicity as a set of numbers of occurrences. It is a set of natural
numbers, so a multiplicity without upper bound allows numbers that no word holds. The
operations are described by what they allow: `intersect` the counts in both intervals
(`allows_intersect`), `shift` by a number of missing occurrences the counts that are in the
interval once these are added (`allows_shift`), and `divide?` by `n` the counts whose `n`-fold
is in the interval (`exists_divide?`).
-/

namespace Blockwork

namespace Multiplicity

/-- Whether a number of occurrences lies in the interval. -/
def Allows (m : Multiplicity) (count : Nat) : Prop :=
  m.lower.toNat ≤ count ∧ (m.isUnbounded = true ∨ count ≤ m.upper.toNat)

theorem isUnbounded_iff {m : Multiplicity} : m.isUnbounded = true ↔ m.upper.toNat = 4294967295 := by
  rw [isUnbounded, beq_iff_eq, ← UInt32.toNat_inj]
  rfl

theorem allows_iff {m : Multiplicity} {count : Nat} : m.Allows count ↔
    m.lower.toNat ≤ count ∧ (m.upper.toNat = 4294967295 ∨ count ≤ m.upper.toNat) := by
  rw [Allows, isUnbounded_iff]

/-- On words, the test agrees with the set. -/
theorem contains_iff {m : Multiplicity} {count : UInt32} :
    m.contains count = true ↔ m.Allows count.toNat := by
  have := count.toNat_lt
  rw [allows_iff, contains, Bool.and_eq_true, decide_eq_true_iff, decide_eq_true_iff,
    UInt32.le_iff_toNat_le, UInt32.le_iff_toNat_le]
  omega

theorem allows_any (count : Nat) : any.Allows count :=
  allows_iff.2 ⟨Nat.zero_le _, Or.inl rfl⟩

theorem allows_one {count : Nat} : one.Allows count ↔ count = 1 := by
  rw [allows_iff]
  show 1 ≤ count ∧ (1 = 4294967295 ∨ count ≤ 1) ↔ count = 1
  omega

theorem isUnconstrained_iff {m : Multiplicity} : m.isUnconstrained = true ↔ m = any := by
  rw [isUnconstrained, beq_iff_eq]

/-- An interval that allows a count is determined by the counts it allows. -/
theorem eq_of_allows {m o : Multiplicity} {count : Nat} (hcount : m.Allows count)
    (h : ∀ k, m.Allows k ↔ o.Allows k) : m = o := by
  have hml := m.lower.toNat_lt
  have hmu := m.upper.toNat_lt
  have hol := o.lower.toNat_lt
  have hou := o.upper.toNat_lt
  simp only [allows_iff] at hcount h
  have hlower : m.lower.toNat = o.lower.toNat := by
    have := h m.lower.toNat
    have := h o.lower.toNat
    have := h count
    omega
  have hupper : m.upper.toNat = o.upper.toNat := by
    have := h m.upper.toNat
    have := h o.upper.toNat
    have := h 4294967295
    have := h count
    omega
  cases m
  cases o
  rw [mk.injEq]
  exact ⟨UInt32.toNat_inj.1 hlower, UInt32.toNat_inj.1 hupper⟩

/-! ## Operations -/

theorem toNat_max (a b : UInt32) : (max a b).toNat = max a.toNat b.toNat := by
  show (if a ≤ b then b else a).toNat = _
  split
  · rename_i h
    have := UInt32.le_iff_toNat_le.1 h
    omega
  · rename_i h
    have := mt UInt32.le_iff_toNat_le.2 h
    omega

theorem toNat_min (a b : UInt32) : (min a b).toNat = min a.toNat b.toNat := by
  show (if a ≤ b then a else b).toNat = _
  split
  · rename_i h
    have := UInt32.le_iff_toNat_le.1 h
    omega
  · rename_i h
    have := mt UInt32.le_iff_toNat_le.2 h
    omega

theorem allows_intersect {m o : Multiplicity} {count : Nat} :
    (m.intersect o).Allows count ↔ m.Allows count ∧ o.Allows count := by
  have := m.upper.toNat_lt
  have := o.upper.toNat_lt
  simp only [allows_iff, intersect, toNat_max, toNat_min]
  omega

theorem toNat_clamp {n : Int} (h : 0 ≤ n) : (clamp n).toNat = min n.toNat 4294967295 := by
  unfold clamp
  split
  · rename_i hn
    rw [UInt32.toNat_ofNat_of_lt' (by simp [UInt32.size]; omega)]
    omega
  · rename_i hn
    show 4294967295 = _
    omega

theorem toNat_clamp_natCast (n : Nat) : (clamp n).toNat = min n 4294967295 := by
  rw [toNat_clamp (Int.natCast_nonneg n), Int.toNat_natCast]

/-- The bounds of a moved interval. Below zero as a whole it is empty, and a bound beyond the
largest word stops there. -/
theorem bounds_shift (m : Multiplicity) (d : Int) :
    (m.shift d).lower.toNat = (if m.isUnbounded = false ∧ m.upper.toNat + d < 0 then 1
      else min (m.lower.toNat + d).toNat 4294967295) ∧
      (m.shift d).upper.toNat = (if m.isUnbounded then 4294967295
        else min (m.upper.toNat + d).toNat 4294967295) := by
  have hinf : infinity.toNat = 4294967295 := rfl
  unfold shift
  cases hb : m.isUnbounded with
  | true =>
    simp only [if_true, Bool.true_eq_false, false_and, if_false]
    rw [if_neg (by omega), toNat_clamp (by omega), toNat_clamp (by omega)]
    omega
  | false =>
    simp only [Bool.false_eq_true, if_false, true_and]
    by_cases hd : (m.upper.toNat : Int) + d < 0
    · rw [if_pos hd, if_pos hd]
      show 1 = 1 ∧ 0 = _
      omega
    · rw [if_neg hd, if_neg hd, toNat_clamp (by omega), toNat_clamp (by omega)]
      omega

/-- A moved interval allows what lies between the moved bounds, of which one beyond the largest
word stops there, where an upper bound is none. -/
theorem allows_shift_iff {m : Multiplicity} {d : Int} {count : Nat} : (m.shift d).Allows count ↔
    min (m.lower.toNat + d) 4294967295 ≤ count ∧ (m.isUnbounded = true ∨
      4294967295 ≤ m.upper.toNat + d ∨ count ≤ m.upper.toNat + d) := by
  obtain ⟨hlower, hupper⟩ := m.bounds_shift d
  rw [allows_iff, hlower, hupper]
  cases hb : m.isUnbounded with
  | true =>
    simp only [if_true, Bool.true_eq_false, false_and, if_false, true_or, and_true]
    omega
  | false =>
    simp only [Bool.false_eq_true, if_false, true_and, false_or]
    split <;> omega

/-- Where `missing` occurrences are supplied elsewhere, the other ones may be as many as
make up a count in the interval. -/
theorem allows_shift {m : Multiplicity} {missing count : Nat} :
    (m.shift (-missing)).Allows count ↔ m.Allows (count + missing) := by
  have hl := m.lower.toNat_lt
  have hu := m.upper.toNat_lt
  rw [allows_shift_iff, allows_iff, isUnbounded_iff]
  omega

/-- The bounds of an interval divided by a word that is not zero. -/
theorem exists_divide?_bounds (m : Multiplicity) {n : UInt32} (hn : 0 < n) :
    ∃ d, m.divide? n = some d ∧
      d.lower.toNat = (m.lower.toNat + (n.toNat - 1)) / n.toNat ∧
        d.upper.toNat =
          if m.upper.toNat = 4294967295 then 4294967295 else m.upper.toNat / n.toNat := by
  have hl := m.lower.toNat_lt
  have hpos : 0 < n.toNat := UInt32.lt_iff_toNat_lt.1 hn
  have hzero : n ≠ 0 := fun h => by simp [h] at hpos
  unfold divide?
  rw [if_neg hzero]
  refine ⟨_, rfl, ?_, ?_⟩
  · apply UInt32.toNat_ofNat_of_lt'
    refine Nat.lt_of_le_of_lt ?_ hl
    rw [Nat.div_le_iff_le_mul hpos]
    have := Nat.le_mul_of_pos_right m.lower.toNat hpos
    omega
  · simp only [isUnbounded_iff]
    split
    · rfl
    · rw [UInt32.toNat_div]

/-- Where each of `n` occurrences stands for `count` others, the counts are those whose
`n`-fold is in the interval. -/
theorem exists_divide? (m : Multiplicity) {n : UInt32} (hn : 0 < n) :
    ∃ d, m.divide? n = some d ∧ ∀ count, d.Allows count ↔ m.Allows (n.toNat * count) := by
  have hpos : 0 < n.toNat := UInt32.lt_iff_toNat_lt.1 hn
  obtain ⟨d, hd, hlower, hupper⟩ := m.exists_divide?_bounds hn
  refine ⟨d, hd, fun count => ?_⟩
  have hle : d.lower.toNat ≤ count ↔ m.lower.toNat ≤ n.toNat * count := by
    rw [hlower, Nat.div_le_iff_le_mul hpos, Nat.mul_comm]
    omega
  rw [allows_iff, allows_iff, hle, hupper]
  split
  · omega
  · rw [Nat.le_div_iff_mul_le hpos, Nat.mul_comm count]
    have := Nat.div_le_self m.upper.toNat n.toNat
    have := m.upper.toNat_lt
    omega

theorem exists_allows_iff {m : Multiplicity} :
    (∃ count, m.Allows count) ↔ m.isEmpty = false := by
  have hl := m.lower.toNat_lt
  rw [isEmpty, decide_eq_false_iff_not, UInt32.lt_iff_toNat_lt]
  simp only [allows_iff]
  constructor
  · rintro ⟨count, hlower, hupper⟩
    omega
  · intro hle
    exact ⟨m.lower.toNat, by omega, by omega⟩

/-- An interval is of use if it allows an occurrence at all. -/
theorem exists_pos_allows_iff {m : Multiplicity} :
    (∃ count, 1 ≤ count ∧ m.Allows count) ↔ ¬(m.isEmpty || m.upper == 0) = true := by
  have hl := m.lower.toNat_lt
  have hzero : m.upper = 0 ↔ m.upper.toNat = 0 := by rw [← UInt32.toNat_inj]; rfl
  rw [Bool.or_eq_true, isEmpty, decide_eq_true_iff, UInt32.lt_iff_toNat_lt, beq_iff_eq, hzero]
  simp only [allows_iff]
  constructor
  · rintro ⟨count, hpos, hlower, hupper⟩
    omega
  · intro h
    exact ⟨max m.lower.toNat 1, by omega, by omega, by omega⟩

end Multiplicity

end Blockwork
