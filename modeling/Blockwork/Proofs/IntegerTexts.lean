import Blockwork.Proofs.LinkedParameters
import Blockwork.Proofs.NearestDoubles
import Blockwork.Proofs.Splitting

/-!
# Integers as texts

A text denotes an integer if it holds digits with an optional sign before them, and nothing but
blanks around them (`Decimal.Denotes`). The kinds of whole numbers read just these texts, as far as
they have a literal for the integer (`LiteralKind.Takes`), and what they read is the integer itself
(`LiteralKind.IsWhole.read_eq_ok`). A literal of any kind but a double is read back from the text
that shows it (`Literal.read_shown`).

So a whole number that is given for an attribute of another type keeps its value. Only a double may
have to change it: it is nearest to the integer, and differs from it if no double has its value.
All this is `Literal.integers_exact`.
-/

namespace Blockwork

namespace Decimal

/-! ## Digits -/

/-- ASCII digits, at least one. -/
structure Digits (ds : List Char) : Prop where
  ne_nil : ds ≠ []
  digit : ∀ c ∈ ds, '0' ≤ c ∧ c ≤ '9'

/-- The number that digits denote, their last one the units. -/
def digitsValue (ds : List Char) : Nat :=
  Nat.ofDigits 10 (ds.reverse.map fun c => c.toNat - '0'.toNat)

theorem isDigit_iff {c : Char} : c.isDigit = true ↔ '0' ≤ c ∧ c ≤ '9' := by
  simp [Char.isDigit, Char.le_def, UInt32.le_iff_toNat_le]

theorem isBlank_of_isDigit {c : Char} (hc : c.isDigit = true) : Text.isBlank c = false := by
  have hle : 48 ≤ c.toNat ∧ c.toNat ≤ 57 := by
    simpa [Char.isDigit, UInt32.le_iff_toNat_le] using hc
  grind [Text.isBlank]

theorem isAlpha_of_isDigit {c : Char} (hc : c.isDigit = true) : c.isAlpha = false := by
  grind [Char.isDigit, Char.isAlpha, Char.isUpper, Char.isLower, UInt32.le_iff_toNat_le]

theorem Digits.isDigit {ds : List Char} (h : Digits ds) : ∀ c ∈ ds, c.isDigit = true :=
  fun c hc => isDigit_iff.2 (h.digit c hc)

theorem digits_iff {ds : List Char} : Digits ds ↔ ds ≠ [] ∧ ds.all Char.isDigit = true := by
  simp only [List.all_eq_true, isDigit_iff]
  exact ⟨fun h => ⟨h.ne_nil, h.digit⟩, fun h => ⟨h.1, h.2⟩⟩

theorem ofDigitChars_eq (ds : List Char) : Nat.ofDigitChars 10 ds 0 = digitsValue ds := by
  induction ds using List.reverseRecOn with
  | nil => rfl
  | append_singleton ds c ih =>
    rw [Nat.ofDigitChars_append, ih, Nat.ofDigitChars_cons, Nat.ofDigitChars_nil]
    unfold digitsValue
    rw [List.reverse_append, List.reverse_singleton, List.singleton_append, List.map_cons,
      Nat.ofDigits_cons, Nat.add_comm]

theorem readNat?_eq_some {cs : List Char} {n : Nat} :
    readNat? cs = some n ↔ Digits cs ∧ digitsValue cs = n := by
  unfold readNat?
  rw [digits_iff, ofDigitChars_eq]
  split
  · rename_i h
    rw [Option.some_inj, and_iff_right h]
  · rename_i h
    exact ⟨nofun, fun h' => absurd h'.1 h⟩

theorem digits_natChars (n : Nat) : Digits (natChars n) ∧ digitsValue (natChars n) = n :=
  readNat?_eq_some.1 (readNat?_natChars n)

/-! ## Integers with a sign -/

/-- The characters are digits with an optional sign before them, and denote the integer. -/
inductive Writes : List Char → Int → Prop
  | plain {ds : List Char} (h : Digits ds) : Writes ds (digitsValue ds)
  | plus {ds : List Char} (h : Digits ds) : Writes ('+' :: ds) (digitsValue ds)
  | minus {ds : List Char} (h : Digits ds) : Writes ('-' :: ds) (-digitsValue ds)

/-- The text denotes the integer: it is written there, with nothing but blanks around it. -/
def Denotes (s : String) (n : Int) : Prop :=
  ∃ before written after, s.toList = before ++ (written ++ after) ∧
    (∀ c ∈ before, Text.isBlank c = true) ∧ (∀ c ∈ after, Text.isBlank c = true) ∧
    Writes written n

theorem readInt?_eq_some {cs : List Char} {n : Int} : readInt? cs = some n ↔ Writes cs n := by
  constructor
  · intro h
    unfold readInt? at h
    split at h
    · rename_i ds
      cases hread : readNat? ds with
      | none => simp [hread] at h
      | some k =>
        obtain ⟨hdigits, rfl⟩ := readNat?_eq_some.1 hread
        rw [hread] at h
        cases h
        exact .minus hdigits
    all_goals
      obtain ⟨k, hread, rfl⟩ := Option.map_eq_some_iff.1 h
      obtain ⟨hdigits, rfl⟩ := readNat?_eq_some.1 hread
    · exact .plus hdigits
    · exact .plain hdigits
  · rintro (h | h | h)
    · have hread := readNat?_eq_some.2 ⟨h, rfl⟩
      unfold readInt?
      split
      · exact absurd (h.isDigit '-' List.mem_cons_self) (by decide)
      · exact absurd (h.isDigit '+' List.mem_cons_self) (by decide)
      · rw [hread]
        rfl
    · exact congrArg (Option.map Int.ofNat) (readNat?_eq_some.2 ⟨h, rfl⟩)
    · show Option.map _ (readNat? _ >>= _) = _
      rw [readNat?_eq_some.2 ⟨h, rfl⟩]
      rfl

theorem Writes.trimChars_eq {cs : List Char} {n : Int} (h : Writes cs n) :
    Text.trimChars cs = cs := by
  have hdigits : ∀ {ds : List Char}, Digits ds → ∀ c ∈ ds, Text.isBlank c = false :=
    fun h c hc => isBlank_of_isDigit (h.isDigit c hc)
  have hblank : ∀ c ∈ cs, Text.isBlank c = false := by
    cases h with
    | plain h => exact hdigits h
    | plus h | minus h => exact List.forall_mem_cons.2 ⟨rfl, hdigits h⟩
  have hend : ∀ o : Option Char, (∀ c ∈ o, c ∈ cs) → o.any Text.isBlank = false := by
    intro o ho
    cases o with
    | none => rfl
    | some c => exact hblank c (ho c rfl)
  exact Text.trimChars_eq_self (hend _ fun c => List.mem_of_mem_head?)
    (hend _ fun c => List.mem_of_getLast?)

/-- A text denotes what is read once it is trimmed. -/
theorem readInt?_trimChars {s : String} {n : Int} :
    readInt? (Text.trimChars s.toList) = some n ↔ Denotes s n := by
  rw [readInt?_eq_some]
  constructor
  · intro h
    obtain ⟨before, after, hbefore, hafter, heq⟩ := Text.exists_blanks s.toList
    exact ⟨before, _, after, heq, hbefore, hafter, h⟩
  · rintro ⟨before, written, after, heq, hbefore, hafter, h⟩
    rwa [heq, Text.trimChars_blanks hbefore hafter, h.trimChars_eq]

theorem Denotes.unique {s : String} {n k : Int} (hn : Denotes s n) (hk : Denotes s k) : n = k :=
  Option.some.inj ((readInt?_trimChars.2 hn).symm.trans (readInt?_trimChars.2 hk))

theorem writes_intChars (n : Int) : Writes (intChars n) n := by
  cases n with
  | ofNat k =>
    obtain ⟨hdigits, hvalue⟩ := digits_natChars k
    have hwrites := Writes.plain hdigits
    rwa [hvalue] at hwrites
  | negSucc k =>
    obtain ⟨hdigits, hvalue⟩ := digits_natChars (k + 1)
    have hwrites := Writes.minus hdigits
    rwa [hvalue] at hwrites

theorem denotes_intChars (n : Int) : Denotes (String.ofList (intChars n)) n :=
  ⟨[], intChars n, [], by simp, nofun, nofun, writes_intChars n⟩

/-! ## Integers read as doubles -/

/-- Digits are read as the double nearest to their number. -/
theorem Digits.readMagnitude?_eq {ds : List Char} (h : Digits ds) :
    readMagnitude? ds = some (nearest (digitsValue ds) 0) := by
  have htake : ds.takeWhile Char.isDigit = ds := List.takeWhile_eq_self_iff.2 h.isDigit
  have hdrop : ds.dropWhile Char.isDigit = [] := List.dropWhile_eq_nil_iff.2 h.isDigit
  -- The words for special values begin with a letter.
  have hword : ∀ c cs, c.isAlpha = true → lowerChars ds ≠ c :: cs := by
    rintro c cs hc heq
    obtain ⟨d, ds, rfl, rfl, -⟩ := List.map_eq_cons_iff.1 heq
    rw [Char.isAlpha_toLower_eq_isAlpha,
      isAlpha_of_isDigit (h.isDigit d List.mem_cons_self)] at hc
    cases hc
  have hread : readUnsigned? ds = some (nearest (digitsValue ds) 0) := by
    unfold readUnsigned? spanDigits
    simp only [htake, hdrop]
    rw [List.isEmpty_eq_false_iff.2 h.ne_nil, List.append_nil, ofDigitChars_eq]
    rfl
  have hi : 'i'.isAlpha = true := rfl
  have hn : 'n'.isAlpha = true := rfl
  unfold readMagnitude?
  simp only [hword _ _ hi, hword _ _ hn, or_self, if_false]
  exact hread

theorem Digits.readFloat?_eq {ds : List Char} (h : Digits ds) :
    readFloat? ds = some (nearest (digitsValue ds) 0) := by
  unfold readFloat?
  split
  · exact absurd (h.isDigit '-' List.mem_cons_self) (by decide)
  · exact absurd (h.isDigit '+' List.mem_cons_self) (by decide)
  · exact h.readMagnitude?_eq

/-- The text of an integer of 64 bits is read as a double nearest to it. -/
theorem exists_readFloat?_intChars {n : Int} (hn : n.natAbs < 2 ^ 64) :
    ∃ x, readFloat? (intChars n) = some x ∧ IsNearest x n := by
  cases n with
  | ofNat k =>
    obtain ⟨hdigits, hvalue⟩ := digits_natChars k
    have hread := hdigits.readFloat?_eq
    rw [hvalue] at hread
    exact ⟨_, hread, isNearest_nearest hn⟩
  | negSucc k =>
    obtain ⟨hdigits, hvalue⟩ := digits_natChars (k + 1)
    have hread := hdigits.readMagnitude?_eq
    rw [hvalue] at hread
    exact ⟨_, congrArg (Option.map Float.neg) hread, isNearest_neg_nearest k.succ_pos hn⟩

end Decimal

/-! ## Whole numbers -/

namespace LiteralKind

/-- The kinds of whole numbers. -/
inductive IsWhole : LiteralKind → Prop
  | integer : IsWhole integer
  | long : IsWhole long

/-- The kind has a literal for the integer. -/
def Takes : LiteralKind → Int → Prop
  | boolean, _ => False
  | integer, n => -2 ^ 31 ≤ n ∧ n < 2 ^ 31
  | long, n => -2 ^ 63 ≤ n ∧ n < 2 ^ 63
  | double, _ => True
  | text, _ => True

end LiteralKind

/-- The literal has the value of the integer. -/
def Literal.Holds : Literal → Int → Prop
  | boolean _, _ => False
  | integer k, n => k.toInt = n
  | long k, n => k.toInt = n
  | double x, n => Decimal.value? x = some (n : ℚ)
  | text s, n => Decimal.Denotes s n

namespace LiteralKind

variable {kind : LiteralKind} {s : String} {cs : List Char} {v : Literal} {n : Int}

theorem readWithin?_eq_some {least greatest : Int} :
    readWithin? least greatest cs = some n ↔
      Decimal.readInt? cs = some n ∧ least ≤ n ∧ n ≤ greatest := by
  unfold readWithin?
  rw [Option.bind_eq_bind, Option.bind_eq_some_iff]
  constructor
  · rintro ⟨k, hread, hk⟩
    split at hk
    · rename_i hwithin
      cases hk
      exact ⟨hread, hwithin⟩
    · cases hk
  · rintro ⟨hread, hwithin⟩
    exact ⟨n, hread, if_pos hwithin⟩

/-- The literals of whole numbers are within the bounds. -/
theorem IsWhole.takes_of_holds (hkind : v.kind.IsWhole) (h : v.Holds n) : v.kind.Takes n := by
  cases v with
  | integer k => exact h ▸ ⟨k.le_toInt, k.toInt_lt⟩
  | long k => exact h ▸ ⟨k.le_toInt, k.toInt_lt⟩
  | boolean | double | text => cases hkind

theorem IsWhole.exists_holds (hkind : kind.IsWhole) (h : kind.Takes n) :
    ∃ v : Literal, v.kind = kind ∧ v.Holds n := by
  cases hkind with
  | integer => exact ⟨.integer (Int32.ofInt n), rfl, Int32.toInt_ofInt_of_le h.1 h.2⟩
  | long => exact ⟨.long (Int64.ofInt n), rfl, Int64.toInt_ofInt_of_le h.1 h.2⟩

/-- What is read within the bounds of words is the word with the value of the integer. -/
theorem map_readWithin?_eq_some {W : Type} {word : W → Literal} {ofInt : Int → W}
    {toInt : W → Int} {least greatest : Int} (hofInt : ∀ k, ofInt (toInt k) = k)
    (htoInt : ∀ n, least ≤ n → n ≤ greatest → toInt (ofInt n) = n)
    (hbounds : ∀ k, least ≤ toInt k ∧ toInt k ≤ greatest) :
    ((readWithin? least greatest cs).map fun n => word (ofInt n)) = some v ↔
      ∃ k, word k = v ∧ Decimal.readInt? cs = some (toInt k) := by
  simp only [Option.map_eq_some_iff, readWithin?_eq_some]
  constructor
  · rintro ⟨n, ⟨hread, hle, hge⟩, rfl⟩
    exact ⟨_, rfl, by rw [htoInt n hle hge, hread]⟩
  · rintro ⟨k, rfl, hread⟩
    exact ⟨_, ⟨hread, hbounds k⟩, by rw [hofInt]⟩

theorem IsWhole.readTrimmed?_eq_some (hkind : kind.IsWhole) :
    kind.readTrimmed? cs = some v ↔
      v.kind = kind ∧ ∃ n, Decimal.readInt? cs = some n ∧ v.Holds n := by
  cases hkind with
  | integer =>
    refine (map_readWithin?_eq_some Int32.ofInt_toInt
      (fun n hle hge => Int32.toInt_ofInt_of_le hle (Int.lt_of_le_sub_one hge))
      (fun k => ⟨k.minValue_le_toInt, k.toInt_le⟩)).trans ⟨?_, ?_⟩
    · rintro ⟨k, rfl, hread⟩
      exact ⟨rfl, _, hread, rfl⟩
    · rintro ⟨hv, n, hread, hn⟩
      cases v with
      | integer k => exact ⟨k, rfl, hn ▸ hread⟩
      | _ => cases hv
  | long =>
    refine (map_readWithin?_eq_some Int64.ofInt_toInt
      (fun n hle hge => Int64.toInt_ofInt_of_le hle (Int.lt_of_le_sub_one hge))
      (fun k => ⟨k.minValue_le_toInt, k.toInt_le⟩)).trans ⟨?_, ?_⟩
    · rintro ⟨k, rfl, hread⟩
      exact ⟨rfl, _, hread, rfl⟩
    · rintro ⟨hv, n, hread, hn⟩
      cases v with
      | long k => exact ⟨k, rfl, hn ▸ hread⟩
      | _ => cases hv

theorem read_eq_ok (hkind : kind ≠ .text) :
    kind.read s = .ok v ↔ kind.readTrimmed? (Text.trimChars s.toList) = some v := by
  unfold read
  split
  · exact absurd rfl hkind
  · split
    · rename_i hread
      rw [hread, Except.ok.injEq, Option.some_inj]
    · rename_i hnone
      rw [hnone]
      exact ⟨nofun, nofun⟩

/-- A kind of whole numbers reads the texts that denote an integer which it can hold, and what it
reads is this integer. -/
theorem IsWhole.read_eq_ok (hkind : kind.IsWhole) :
    kind.read s = .ok v ↔ v.kind = kind ∧ ∃ n, Decimal.Denotes s n ∧ v.Holds n := by
  have hne : kind ≠ .text := by
    rintro rfl
    cases hkind
  rw [LiteralKind.read_eq_ok hne, hkind.readTrimmed?_eq_some]
  simp only [Decimal.readInt?_trimChars]

theorem IsWhole.exists_read_iff (hkind : kind.IsWhole) :
    (∃ v, kind.read s = .ok v) ↔ ∃ n, Decimal.Denotes s n ∧ kind.Takes n := by
  simp only [hkind.read_eq_ok]
  constructor
  · rintro ⟨v, rfl, n, hs, hv⟩
    exact ⟨n, hs, hkind.takes_of_holds hv⟩
  · rintro ⟨n, hs, hn⟩
    obtain ⟨v, hv, hholds⟩ := hkind.exists_holds hn
    exact ⟨v, hv, n, hs, hholds⟩

section Denoted

variable (hs : Decimal.Denotes s n)
include hs

theorem IsWhole.exists_read_of_denotes (hkind : kind.IsWhole) :
    (∃ v, kind.read s = .ok v) ↔ kind.Takes n := by
  rw [hkind.exists_read_iff]
  exact ⟨fun ⟨_, hk, htakes⟩ => hk.unique hs ▸ htakes, fun htakes => ⟨n, hs, htakes⟩⟩

theorem IsWhole.holds_of_read (hkind : kind.IsWhole) (hv : kind.read s = .ok v) : v.Holds n := by
  obtain ⟨-, k, hk, hholds⟩ := hkind.read_eq_ok.1 hv
  exact hk.unique hs ▸ hholds

/-- No text of an integer is read as a Boolean. -/
theorem read_boolean_ne_ok : boolean.read s ≠ .ok v := by
  rw [← Decimal.readInt?_trimChars] at hs
  rw [Ne, LiteralKind.read_eq_ok (by decide : boolean ≠ .text)]
  simp only [readTrimmed?]
  split
  · rename_i htrue
    rw [htrue] at hs
    cases hs
  · split
    · rename_i hfalse
      rw [hfalse] at hs
      cases hs
    · exact (Option.some_ne_none v).symm

end Denoted

theorem read_double_eq_ok :
    double.read s = .ok v ↔
      ∃ x, Decimal.readFloat? (Text.trimChars s.toList) = some x ∧ .double x = v :=
  (LiteralKind.read_eq_ok (by decide : double ≠ .text)).trans Option.map_eq_some_iff

end LiteralKind

theorem Hierarchy.readLiteral_eq_ok {h : Hierarchy} {t : ClassType} {s : String} {v : Literal} :
    h.readLiteral s t = .ok v ↔ t.hasInterfaces = false ∧
      ∃ kind, h.literalKind? t.base = some kind ∧ kind.read s = .ok v := by
  unfold readLiteral
  split
  · rename_i hinterfaces
    simp [hinterfaces]
  · rename_i hinterfaces
    rw [Bool.not_eq_true] at hinterfaces
    split
    · rename_i hnone
      simp [hnone]
    · rename_i kind hkind
      simp [hinterfaces, hkind]

/-! ## What is read from the text of a literal -/

namespace Literal

open Decimal

variable {h : Hierarchy} {t : ClassType} {kind : LiteralKind} {v w : Literal} {n : Int}

/-- A literal is read back from the text that shows it. -/
theorem read_shown (hv : v.kind ≠ .double) : v.kind.read v.shown = .ok v := by
  cases v with
  | boolean b => cases b <;> rfl
  | integer k => exact LiteralKind.IsWhole.integer.read_eq_ok.2 ⟨rfl, _, denotes_intChars _, rfl⟩
  | long k => exact LiteralKind.IsWhole.long.read_eq_ok.2 ⟨rfl, _, denotes_intChars _, rfl⟩
  | double x => exact absurd rfl hv
  | text s => rfl

theorem shown_of_holds (hkind : v.kind.IsWhole) (hv : v.Holds n) :
    v.shown = String.ofList (intChars n) := by
  cases v with
  | integer k | long k => exact congrArg (fun n => String.ofList (intChars n)) hv
  | boolean | double | text => cases hkind

theorem natAbs_lt_of_holds (hkind : v.kind.IsWhole) (hv : v.Holds n) : n.natAbs < 2 ^ 64 := by
  have htakes := LiteralKind.IsWhole.takes_of_holds hkind hv
  revert hkind htakes
  cases v.kind with
  | integer | long =>
    rintro - ⟨hle, hlt⟩
    omega
  | boolean | double | text => exact nofun

/-- The literal stands for the integer: it has its value, or else it is a double nearest to it
while no double has its value. -/
inductive StandsFor (v : Literal) (n : Int) : Prop
  | exact (hv : v.Holds n)
  | nearest {x : Float} (hx : v = .double x) (hnearest : IsNearest x n)
    (hnone : ∀ y, value? y ≠ some (n : ℚ))

section OfInteger

variable (hn : n.natAbs < 2 ^ 64)
include hn

/-- As a double, the text of an integer is read as one nearest to it. -/
theorem exists_nearest_read : ∃ x, IsNearest x n ∧
    ∀ w, LiteralKind.double.read (String.ofList (intChars n)) = .ok w ↔ .double x = w := by
  obtain ⟨x, hread, hnearest⟩ := exists_readFloat?_intChars hn
  refine ⟨x, hnearest, fun w => ?_⟩
  rw [LiteralKind.read_double_eq_ok, String.toList_ofList, (writes_intChars n).trimChars_eq, hread]
  simp only [Option.some_inj, exists_eq_left']

/-- The text of an integer is read by the kinds that have a literal for it. -/
theorem exists_read_intChars_iff :
    (∃ w, kind.read (String.ofList (intChars n)) = .ok w) ↔ kind.Takes n := by
  have hdenotes := denotes_intChars n
  cases kind with
  | boolean => exact ⟨fun ⟨_, hw⟩ => LiteralKind.read_boolean_ne_ok hdenotes hw, nofun⟩
  | integer => exact LiteralKind.IsWhole.integer.exists_read_of_denotes hdenotes
  | long => exact LiteralKind.IsWhole.long.exists_read_of_denotes hdenotes
  | double =>
    obtain ⟨x, -, hread⟩ := exists_nearest_read hn
    exact ⟨fun _ => trivial, fun _ => ⟨_, (hread _).2 rfl⟩⟩
  | text => exact ⟨fun _ => trivial, fun _ => ⟨_, rfl⟩⟩

/-- What is read from the text of an integer stands for it. -/
theorem standsFor_of_read (hw : kind.read (String.ofList (intChars n)) = .ok w) :
    w.StandsFor n := by
  have hdenotes := denotes_intChars n
  cases kind with
  | boolean => exact absurd hw (LiteralKind.read_boolean_ne_ok hdenotes)
  | integer => exact .exact (LiteralKind.IsWhole.integer.holds_of_read hdenotes hw)
  | long => exact .exact (LiteralKind.IsWhole.long.holds_of_read hdenotes hw)
  | double =>
    obtain ⟨x, hnearest, hread⟩ := exists_nearest_read hn
    rw [hread] at hw
    subst hw
    rcases hnearest.value?_eq_or with hvalue | hnone
    · exact .exact hvalue
    · exact .nearest rfl hnearest hnone
  | text =>
    cases hw
    exact .exact hdenotes

end OfInteger

/-! ## What a whole number becomes -/

section Coerced

variable (hkind : v.kind.IsWhole) (hv : v.Holds n)
include hkind hv

theorem exists_coerce?_iff : (∃ w, h.coerce? v t = some w) ↔
    h.assignable t (h.literalType v) = true ∨
      t.hasInterfaces = false ∧ ∃ kind, h.literalKind? t.base = some kind ∧ kind.Takes n := by
  have htext : v.kind ≠ .text := by
    intro heq
    rw [heq] at hkind
    cases hkind
  have hread : ∀ {kind : LiteralKind}, (∃ w, kind.read v.shown = .ok w) ↔ kind.Takes n := by
    intro kind
    rw [shown_of_holds hkind hv]
    exact exists_read_intChars_iff (natAbs_lt_of_holds hkind hv)
  simp only [Hierarchy.coerce?_eq_some]
  constructor
  · rintro ⟨w, hassign | ⟨-, -, hw⟩⟩
    · exact .inl hassign
    · obtain ⟨hinterfaces, kind, hk, hw⟩ := Hierarchy.readLiteral_eq_ok.1 hw
      exact .inr ⟨hinterfaces, kind, hk, hread.1 ⟨w, hw⟩⟩
  · rintro (hassign | ⟨hinterfaces, kind, hk, htakes⟩)
    · exact ⟨v, .kept hassign⟩
    · cases hassign : h.assignable t (h.literalType v) with
      | true => exact ⟨v, .kept hassign⟩
      | false =>
        obtain ⟨w, hw⟩ := hread.2 htakes
        exact ⟨w, .reread hassign htext (Hierarchy.readLiteral_eq_ok.2 ⟨hinterfaces, kind, hk, hw⟩)⟩

theorem standsFor_of_coerce? (hw : h.coerce? v t = some w) :
    (w = v ∨ h.literalKind? t.base = some w.kind) ∧ w.StandsFor n := by
  rw [Hierarchy.coerce?_eq_some] at hw
  obtain - | ⟨-, -, hw⟩ := hw
  · exact ⟨.inl rfl, .exact hv⟩
  · obtain ⟨-, kind, hk, hw⟩ := Hierarchy.readLiteral_eq_ok.1 hw
    refine ⟨.inr (Hierarchy.kind_read hw ▸ hk), ?_⟩
    rw [shown_of_holds hkind hv] at hw
    exact standsFor_of_read (natAbs_lt_of_holds hkind hv) hw

end Coerced

/-- Literals other than doubles are read back from their texts. A kind of whole numbers reads just
the texts of integers that it has a literal for, and reads the integer. A whole number that is given
for a type is taken if it has this type or if the literals of the type have one for it, and then
its value is kept unless it becomes a double and no double has this value. -/
theorem integers_exact :
    (∀ v : Literal, v.kind ≠ .double → v.kind.read v.shown = .ok v) ∧
    (∀ kind : LiteralKind, kind.IsWhole → ∀ s,
      (∀ v, kind.read s = .ok v ↔ v.kind = kind ∧ ∃ n, Denotes s n ∧ v.Holds n) ∧
      ((∃ v, kind.read s = .ok v) ↔ ∃ n, Denotes s n ∧ kind.Takes n)) ∧
    ∀ (h : Hierarchy) (t : ClassType) (v : Literal) (n : Int), v.kind.IsWhole → v.Holds n →
      ((∃ w, h.coerce? v t = some w) ↔ h.assignable t (h.literalType v) = true ∨
        t.hasInterfaces = false ∧ ∃ kind, h.literalKind? t.base = some kind ∧ kind.Takes n) ∧
      ∀ w, h.coerce? v t = some w →
        (w = v ∨ h.literalKind? t.base = some w.kind) ∧ w.StandsFor n :=
  ⟨fun _ => read_shown,
    fun _ hkind _ => ⟨fun _ => hkind.read_eq_ok, hkind.exists_read_iff⟩,
    fun _ _ _ _ hkind hv => ⟨exists_coerce?_iff hkind hv, fun _ => standsFor_of_coerce? hkind hv⟩⟩

/-- At the bounds of the kinds: zeros may lead, the least integer is taken and the one after the
greatest is not. -/
theorem integers_exact_bounds :
    LiteralKind.long.read "7" = .ok (.long 7) ∧
    LiteralKind.integer.read " -0002147483648\n" = .ok (.integer (-2147483648)) ∧
    ∃ t, Hierarchy.standard.parse "Integer" = .ok t ∧
      (∃ w, Hierarchy.standard.coerce? (.long (-2147483648)) t = some w) ∧
      ¬∃ w, Hierarchy.standard.coerce? (.long 2147483648) t = some w := by
  obtain ⟨hshown, hread, hcoerce⟩ := integers_exact
  have hinteger : Hierarchy.standard.literalKind? 7 = some .integer := rfl
  refine ⟨hshown (.long 7) (by decide), ?_, ⟨7, []⟩, by decide, ?_, ?_⟩
  · have hdenotes : Denotes " -0002147483648\n" (-2147483648) :=
      readInt?_trimChars.1 (by decide)
    exact ((hread .integer .integer _).1 _).2 ⟨rfl, _, hdenotes, rfl⟩
  · have htakes : LiteralKind.integer.Takes (-2147483648) := ⟨by decide, by decide⟩
    exact (hcoerce _ _ (.long (-2147483648)) _ .long rfl).1.2
      (.inr ⟨rfl, .integer, hinteger, htakes⟩)
  · rw [(hcoerce _ _ (.long 2147483648) 2147483648 .long rfl).1]
    rintro (hassign | ⟨-, kind, hkind, htakes⟩)
    · exact absurd hassign (by decide)
    · cases hinteger.symm.trans hkind
      exact absurd htakes.2 (by decide)

/-- A whole number of 54 binary digits that no double has: the double is one below it. -/
theorem long_changed : ∃ t x, Hierarchy.standard.parse "Double" = .ok t ∧
    Hierarchy.standard.coerce? (.long 9007199254740993) t = some (.double x) ∧
    (Literal.long 9007199254740993).Holds 9007199254740993 ∧
    (Literal.double x).Holds 9007199254740992 ∧ ¬(Literal.double x).Holds 9007199254740993 := by
  have hread : readFloat? (Text.trimChars (Literal.long 9007199254740993).shown.toList) =
      some (nearest 9007199254740993 0) :=
    rfl
  have hliteral : Hierarchy.standard.readLiteral (Literal.long 9007199254740993).shown ⟨9, []⟩ =
      .ok (.double (nearest 9007199254740993 0)) :=
    Hierarchy.readLiteral_eq_ok.2
      ⟨rfl, .double, rfl, LiteralKind.read_double_eq_ok.2 ⟨_, hread, rfl⟩⟩
  -- The integer lies in the middle between two doubles, and the tie goes to the even mantissa.
  have hvalue : value? (nearest 9007199254740993 0) = some 9007199254740992 := by
    have hunpack : (nearest 9007199254740993 0).toModel.unpack =
        .finite .positive (2 ^ 52) 1 (by decide) :=
      rfl
    unfold value?
    rw [hunpack]
    norm_num [Float.Model.UnpackedFloat.Sign.apply]
  refine ⟨⟨9, []⟩, _, by decide, ?_, rfl, hvalue, ?_⟩
  · exact Hierarchy.coerce?_eq_some.2 (.reread (by decide) (by decide) hliteral)
  · intro hholds
    have heq := hvalue.symm.trans hholds
    norm_num at heq

end Literal

end Blockwork
