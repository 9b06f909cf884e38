import Blockwork.Json.Printer
import Mathlib.Data.List.Basic

/-!
# How tokens may be written

A text spells a list of tokens if it consists of them in order, with any blanks between them and
with every character of a string written in one of the ways that mean it (`Json.Spells`). The lexer
reads the tokens back from each text that spells them (`Json.lex_of_spells`).
-/

namespace Blockwork

/-! ## Numerals -/

/-- The numeral can be written: its parts are digits where they have to be, and no zero leads. -/
structure Numeral.WellFormed (n : Numeral) : Prop where
  whole : Json.isWhole n.whole = true
  digits : ∀ c ∈ n.whole, c.isDigit = true
  fraction : ∀ c ∈ n.fraction, c.isDigit = true
  exponent : ∀ negative ds, n.exponent = some (negative, ds) →
    ds ≠ [] ∧ ∀ c ∈ ds, c.isDigit = true

namespace Json

/-- The point and the digits after it, if there are any. -/
def fractionChars (n : Numeral) : List Char :=
  if n.fraction.isEmpty then [] else '.' :: n.fraction

/-- The exponent with its letter, if there is one. -/
def exponentChars (n : Numeral) : List Char :=
  match n.exponent with
  | none => []
  | some (negative, digits) => 'e' :: (if negative then '-' :: digits else digits)

theorem numeralChars_eq (n : Numeral) : numeralChars n =
    (if n.negative then ['-'] else []) ++ (n.whole ++ (fractionChars n ++ exponentChars n)) :=
  (List.append_assoc _ _ (exponentChars n)).trans (List.append_assoc _ n.whole _)

/-- A run of digits ends where something else begins. -/
theorem span_digits {ds cs : List Char} (hds : ∀ c ∈ ds, c.isDigit = true)
    (hcs : ∀ c ∈ cs.head?, c.isDigit = false) :
    (ds ++ cs).takeWhile Char.isDigit = ds ∧ (ds ++ cs).dropWhile Char.isDigit = cs := by
  rw [List.takeWhile_append_of_pos hds, List.dropWhile_append_of_pos hds]
  cases cs with
  | nil => simp
  | cons c cs => simp [hcs c rfl]

theorem ne_of_isDigit {c d : Char} (hc : c.isDigit = true) (hd : d.isDigit = false) : c ≠ d := by
  rintro rfl
  exact nomatch hc.symm.trans hd

section Numeral

variable {n : Numeral} (hn : n.WellFormed)
include hn

theorem readExponent?_exponentChars : readExponent? (exponentChars n) = some n.exponent := by
  unfold exponentChars
  cases hexp : n.exponent with
  | none => rfl
  | some x =>
    obtain ⟨negative, ds⟩ := x
    obtain ⟨hne, hds⟩ := hn.exponent negative ds hexp
    have hall : ds.all Char.isDigit = true := List.all_eq_true.2 hds
    cases negative with
    | true =>
      simp only [readExponent?, if_true, true_or]
      rw [if_pos ⟨hne, hall⟩]
    | false =>
      -- The first digit is no sign.
      cases ds with
      | nil => exact absurd rfl hne
      | cons d ds =>
        have hminus := ne_of_isDigit (d := '-') (hds d List.mem_cons_self) rfl
        have hplus := ne_of_isDigit (d := '+') (hds d List.mem_cons_self) rfl
        simp only [readExponent?, Bool.false_eq_true, if_false, true_or, if_true]
        split
        · rename_i heq
          exact absurd (List.cons.inj heq).1 hminus
        · rename_i heq
          exact absurd (List.cons.inj heq).1 hplus
        · rw [if_pos ⟨hne, hall⟩]

omit hn in
theorem head?_exponentChars : ∀ c ∈ (exponentChars n).head?, c = 'e' := by
  unfold exponentChars
  cases n.exponent with
  | none => simp
  | some x => simp

theorem readFraction?_fractionChars :
    readFraction? (fractionChars n ++ exponentChars n) = some (n.fraction, exponentChars n) := by
  have hhead := head?_exponentChars (n := n)
  unfold fractionChars
  cases hfraction : n.fraction with
  | nil =>
    rw [List.isEmpty_nil, if_pos rfl, List.nil_append]
    unfold readFraction?
    split
    · rename_i heq
      rw [heq] at hhead
      exact absurd (hhead '.' rfl) (by decide)
    · rfl
  | cons c cs =>
    have hdigits : ∀ d ∈ c :: cs, d.isDigit = true := hfraction ▸ hn.fraction
    have hnext : ∀ d ∈ (exponentChars n).head?, d.isDigit = false := fun d hd => by
      rw [hhead d hd]
      rfl
    obtain ⟨htake, hdrop⟩ := span_digits hdigits hnext
    rw [List.isEmpty_cons, if_neg Bool.false_ne_true, List.cons_append]
    unfold readFraction?
    simp only [htake, hdrop]

theorem readUnsigned?_chars (negative : Bool) :
    readUnsigned? negative (n.whole ++ (fractionChars n ++ exponentChars n)) =
      some { n with negative } := by
  have hhead : ∀ c ∈ (fractionChars n ++ exponentChars n).head?, c.isDigit = false := by
    intro c hc
    unfold fractionChars at hc
    split at hc
    · rw [head?_exponentChars c hc]
      rfl
    · rw [← Option.some.inj hc]
      rfl
  obtain ⟨htake, hdrop⟩ := span_digits hn.digits hhead
  unfold readUnsigned?
  simp only [htake, hdrop, hn.whole, readFraction?_fractionChars hn, Bool.not_true,
    Bool.false_eq_true, if_false, Option.bind_eq_bind, Option.bind_some,
    readExponent?_exponentChars hn]
  rfl

theorem exists_digit : ∃ c cs, n.whole = c :: cs ∧ c.isDigit = true := by
  cases hwhole : n.whole with
  | nil => exact absurd hn.whole (by simp [hwhole, isWhole])
  | cons c cs => exact ⟨c, cs, rfl, hn.digits c (hwhole ▸ List.mem_cons_self)⟩

theorem readNumeral?_numeralChars : readNumeral? (numeralChars n) = some n := by
  obtain ⟨c, cs, hwhole, hc⟩ := exists_digit hn
  have hread := readUnsigned?_chars hn n.negative
  rw [numeralChars_eq]
  cases hnegative : n.negative with
  | true =>
    rw [hnegative] at hread
    exact hread.trans (congrArg some (hnegative ▸ rfl))
  | false =>
    rw [hnegative] at hread
    rw [if_neg Bool.false_ne_true, List.nil_append]
    refine Eq.trans ?_ (hread.trans (congrArg some (hnegative ▸ rfl)))
    rw [hwhole, List.cons_append]
    unfold readNumeral?
    split
    · rename_i heq
      exact absurd (List.cons.inj heq).1 (ne_of_isDigit hc rfl)
    · rfl

/-- A numeral is none of the literal names, which have no digits. -/
theorem wordToken?_numeralChars : wordToken? (numeralChars n) = some (.number n) := by
  obtain ⟨c, cs, hwhole, hc⟩ := exists_digit hn
  have hmem : c ∈ numeralChars n := by
    rw [numeralChars_eq, hwhole]
    simp
  have hne : ∀ word : List Char, word.any Char.isDigit = false → numeralChars n ≠ word := by
    rintro word hword rfl
    exact List.any_eq_false.1 hword c hmem hc
  unfold wordToken?
  rw [if_neg (hne _ rfl), if_neg (hne _ rfl), if_neg (hne _ rfl), readNumeral?_numeralChars hn]
  rfl

theorem isWordChar_numeralChars : ∀ c ∈ numeralChars n, isWordChar c = true := by
  have hdigit : ∀ c : Char, c.isDigit = true → isWordChar c = true := fun c hc => by
    simp [isWordChar, Char.isAlphanum, hc]
  intro c hc
  rw [numeralChars_eq] at hc
  simp only [List.mem_append] at hc
  rcases hc with hc | hc | hc | hc
  · split at hc
    · rw [List.mem_singleton.1 hc]
      rfl
    · cases hc
  · exact hdigit c (hn.digits c hc)
  · unfold fractionChars at hc
    split at hc
    · cases hc
    · rcases List.mem_cons.1 hc with rfl | hc
      · rfl
      · exact hdigit c (hn.fraction c hc)
  · unfold exponentChars at hc
    split at hc
    · cases hc
    · rename_i negative ds hexp
      rcases List.mem_cons.1 hc with rfl | hc
      · rfl
      · have hds := (hn.exponent negative ds hexp).2
        split at hc
        · rcases List.mem_cons.1 hc with rfl | hc
          · rfl
          · exact hdigit c (hds c hc)
        · exact hdigit c (hds c hc)

end Numeral

/-! ## Characters of strings -/

/-- How a character may be written between quotes: as it stands, after a backslash, as a unit, or
as a pair of units. -/
inductive SpellsChar : Char → List Char → Prop
  | plain {c : Char} (hquote : c ≠ '"') (hslash : c ≠ '\\') (hc : ¬c.toNat < 0x20) :
    SpellsChar c [c]
  | short {c e : Char} (h : simpleEscape? e = some c) : SpellsChar c ['\\', e]
  | unit {w x y z : Char} {n : Nat} (h : hexUnit? w x y z = some n) (hhigh : isHighUnit n = false)
    (hlow : isLowUnit n = false) : SpellsChar (Char.ofNat n) ['\\', 'u', w, x, y, z]
  | pair {w x y z w' x' y' z' : Char} {m n : Nat} (h : hexUnit? w x y z = some m)
    (h' : hexUnit? w' x' y' z' = some n) (hhigh : isHighUnit m = true) (hlow : isLowUnit n = true) :
    SpellsChar (Char.ofNat (0x10000 + (m - 0xD800) * 0x400 + (n - 0xDC00)))
      ['\\', 'u', w, x, y, z, '\\', 'u', w', x', y', z']

/-- How the characters of a text may be written between quotes. -/
inductive SpellsText : List Char → List Char → Prop
  | nil : SpellsText [] []
  | cons {c : Char} {cs w ws : List Char} (hc : SpellsChar c w) (h : SpellsText cs ws) :
    SpellsText (c :: cs) (w ++ ws)

theorem units?_plain {c : Char} (h : c ≠ '\\') (ws : List Char) :
    units? (c :: ws) = (units? ws).map (.inl c :: ·) := by
  rw [units?]
  · cases units? ws <;> rfl
  all_goals simp [h]

theorem units?_short {c e : Char} (h : simpleEscape? e = some c) (ws : List Char) :
    units? ('\\' :: e :: ws) = (units? ws).map (.inl c :: ·) := by
  have hu : e ≠ 'u' := by
    rintro rfl
    cases h
  rw [units?.eq_3 _ _ fun _ _ _ _ _ he _ => hu he, h]
  cases units? ws <;> rfl

theorem units?_unit {w x y z : Char} {n : Nat} (h : hexUnit? w x y z = some n) (ws : List Char) :
    units? ('\\' :: 'u' :: w :: x :: y :: z :: ws) = (units? ws).map (.inr n :: ·) := by
  rw [units?, h]
  cases units? ws <;> rfl

theorem joinUnits?_unit {n : Nat} (hhigh : isHighUnit n = false) (hlow : isLowUnit n = false)
    (us : List (Char ⊕ Nat)) :
    joinUnits? (.inr n :: us) = (joinUnits? us).map (Char.ofNat n :: ·) := by
  rw [joinUnits?.eq_def]
  simp [hhigh, hlow]

theorem joinUnits?_pair {m n : Nat} (hhigh : isHighUnit m = true) (hlow : isLowUnit n = true)
    (us : List (Char ⊕ Nat)) : joinUnits? (.inr m :: .inr n :: us) = (joinUnits? us).map
      (Char.ofNat (0x10000 + (m - 0xD800) * 0x400 + (n - 0xDC00)) :: ·) := by
  have hm : isLowUnit m = false := by
    unfold isHighUnit at hhigh
    unfold isLowUnit
    simp only [Bool.and_eq_true, decide_eq_true_iff, Bool.and_eq_false_iff,
      decide_eq_false_iff_not] at hhigh ⊢
    omega
  rw [joinUnits?]
  simp [hhigh, hlow, hm]

/-- What is written for a text is unescaped to it. -/
theorem SpellsText.exists_units {cs ws : List Char} (h : SpellsText cs ws) :
    ∃ us, units? ws = some us ∧ joinUnits? us = some cs := by
  induction h with
  | nil => exact ⟨[], rfl, rfl⟩
  | cons hc _ ih =>
    obtain ⟨us, hus, hcs⟩ := ih
    cases hc with
    | plain hquote hslash hc =>
      exact ⟨_, (units?_plain hslash _).trans (congrArg _ hus), congrArg _ hcs⟩
    | short h => exact ⟨_, (units?_short h _).trans (congrArg _ hus), congrArg _ hcs⟩
    | unit h hhigh hlow =>
      exact ⟨_, (units?_unit h _).trans (congrArg _ hus),
        (joinUnits?_unit hhigh hlow us).trans (congrArg _ hcs)⟩
    | pair h h' hhigh hlow =>
      refine ⟨_, (units?_unit h _).trans (congrArg _ ((units?_unit h' _).trans (congrArg _ hus))),
        (joinUnits?_pair hhigh hlow us).trans (congrArg _ hcs)⟩

theorem SpellsText.unescape? {s : String} {ws : List Char} (h : SpellsText s.toList ws) :
    unescape? ws = some (some s) := by
  obtain ⟨us, hus, hcs⟩ := h.exists_units
  unfold Json.unescape?
  rw [hus, Option.map_some, hcs, Option.map_some, String.ofList_toList]

/-! ## The automaton inside strings -/

/-- A character that may stand for itself between quotes. -/
structure Plain (c : Char) : Prop where
  quote : c ≠ '"'
  slash : c ≠ '\\'
  visible : ¬c.toNat < 0x20

theorem Plain.of_toNat {c : Char} (h : 0x30 ≤ c.toNat) (hslash : c.toNat ≠ 0x5C) : Plain c where
  quote := by
    rintro rfl
    exact absurd h (by decide)
  slash := by
    rintro rfl
    exact hslash rfl
  visible := by omega

theorem plain_of_hexDigit? {c : Char} {n : Nat} (h : hexDigit? c = some n) : Plain c := by
  have hle : ∀ {a b : Char}, a ≤ b → a.toNat ≤ b.toNat := fun h => UInt32.le_iff_toNat_le.1 h
  unfold hexDigit? at h
  have h0 : '0'.toNat = 0x30 := rfl
  have h9 : '9'.toNat = 0x39 := rfl
  have ha : 'a'.toNat = 0x61 := rfl
  have hA : 'A'.toNat = 0x41 := rfl
  have hF : 'F'.toNat = 0x46 := rfl
  split at h
  · rename_i hc
    have := hle hc.1
    have := hle hc.2
    exact .of_toNat (by omega) (by omega)
  · split at h
    · rename_i hc
      have := hle hc.1
      exact .of_toNat (by omega) (by omega)
    · split at h
      · rename_i hc
        have := hle hc.1
        have := hle hc.2
        exact .of_toNat (by omega) (by omega)
      · cases h

theorem plain_of_hexUnit? {w x y z : Char} {n : Nat} (h : hexUnit? w x y z = some n) :
    Plain w ∧ Plain x ∧ Plain y ∧ Plain z := by
  unfold hexUnit? at h
  obtain ⟨_, hw, h⟩ := Option.bind_eq_some_iff.1 h
  obtain ⟨_, hx, h⟩ := Option.bind_eq_some_iff.1 h
  obtain ⟨_, hy, h⟩ := Option.bind_eq_some_iff.1 h
  obtain ⟨_, hz, -⟩ := Option.bind_eq_some_iff.1 h
  exact ⟨plain_of_hexDigit? hw, plain_of_hexDigit? hx, plain_of_hexDigit? hy,
    plain_of_hexDigit? hz⟩

theorem visible_of_simpleEscape? {c e : Char} (h : simpleEscape? e = some c) :
    ¬e.toNat < 0x20 := by
  unfold simpleEscape? at h
  split at h <;> first | decide | cases h

section Strings

variable {ts : List Token} {seen : List Char}

theorem foldlM_plain {c : Char} (hc : Plain c) (ws : List Char) :
    (c :: ws).foldlM Scan.step ⟨ts, .string seen⟩ =
      ws.foldlM Scan.step ⟨ts, .string (c :: seen)⟩ := by
  have hstep : Scan.step ⟨ts, .string seen⟩ c = some ⟨ts, .string (c :: seen)⟩ := by
    simp [Scan.step, hc.quote, hc.slash, hc.visible]
  rw [List.foldlM_cons, hstep]
  rfl

theorem foldlM_escape {e : Char} (he : ¬e.toNat < 0x20) (ws : List Char) :
    ('\\' :: e :: ws).foldlM Scan.step ⟨ts, .string seen⟩ =
      ws.foldlM Scan.step ⟨ts, .string (e :: '\\' :: seen)⟩ := by
  have hslash : Scan.step ⟨ts, .string seen⟩ '\\' = some ⟨ts, .escape ('\\' :: seen)⟩ := rfl
  have hstep : Scan.step ⟨ts, .escape ('\\' :: seen)⟩ e =
      some ⟨ts, .string (e :: '\\' :: seen)⟩ := by
    simp [Scan.step, he]
  rw [List.foldlM_cons, hslash, Option.bind_eq_bind, Option.bind_some, List.foldlM_cons, hstep]
  rfl

theorem foldlM_unit {w x y z : Char} {n : Nat} (h : hexUnit? w x y z = some n) (ws : List Char) :
    ('\\' :: 'u' :: w :: x :: y :: z :: ws).foldlM Scan.step ⟨ts, .string seen⟩ =
      ws.foldlM Scan.step ⟨ts, .string (z :: y :: x :: w :: 'u' :: '\\' :: seen)⟩ := by
  obtain ⟨hw, hx, hy, hz⟩ := plain_of_hexUnit? h
  rw [foldlM_escape (by decide), foldlM_plain hw, foldlM_plain hx, foldlM_plain hy, foldlM_plain hz]

/-- Between quotes the automaton keeps all that is written for a text. -/
theorem SpellsText.foldlM {cs ws : List Char} (h : SpellsText cs ws) (rest : List Char) :
    (ws ++ rest).foldlM Scan.step ⟨ts, .string seen⟩ =
      rest.foldlM Scan.step ⟨ts, .string (ws.reverse ++ seen)⟩ := by
  induction h generalizing seen with
  | nil => rfl
  | cons hc _ ih =>
    rw [List.reverse_append, List.append_assoc, List.append_assoc, ← ih]
    cases hc with
    | plain hquote hslash hc => exact foldlM_plain ⟨hquote, hslash, hc⟩ _
    | short h => exact foldlM_escape (visible_of_simpleEscape? h) _
    | unit h => exact foldlM_unit h _
    | pair h h' => exact (foldlM_unit h _).trans (foldlM_unit h' _)

end Strings

/-! ## The automaton between tokens -/

/-- The tokens read, last first, when the automaton stands between tokens or at the end of a
word. -/
inductive Scan.Reads : Scan → List Token → Prop
  | between {ts : List Token} : Reads ⟨ts, .between⟩ ts
  | word {ts : List Token} {t : Token} {seen : List Char} (h : wordToken? seen.reverse = some t) :
    Reads ⟨ts, .word seen⟩ (t :: ts)

/-- The text does not go on with a character of a word. -/
def EndsWord (cs : List Char) : Prop :=
  ∀ c ∈ cs.head?, isWordChar c = false

/-- The automaton can read on: it has read the tokens, and what comes does not belong to the last
one. -/
structure Scan.At (s : Scan) (ts : List Token) (cs : List Char) : Prop where
  reads : s.Reads ts
  apart : s = ⟨ts, .between⟩ ∨ EndsWord cs

theorem Scan.at_between (ts : List Token) (cs : List Char) : Scan.At ⟨ts, .between⟩ ts cs :=
  ⟨.between, .inl rfl⟩

/-- A character that is in no word is the first one of a token. -/
theorem Scan.At.step {s : Scan} {ts : List Token} {c : Char} {cs : List Char}
    (h : s.At ts (c :: cs)) : s.step c = Scan.start ts c := by
  obtain ⟨hreads, rfl | hword⟩ := h
  · rfl
  · have hc := hword c rfl
    cases hreads with
    | between => rfl
    | word h =>
      unfold Scan.step
      simp only [hc, Bool.false_eq_true, if_false, h]
      rfl

theorem Scan.Reads.finish? {s : Scan} {ts : List Token} (h : s.Reads ts) :
    s.finish? = some ts.reverse := by
  cases h with
  | between => rfl
  | word h =>
    unfold Scan.finish?
    simp only [h, Option.map_some]

/-- Blanks end the last token. -/
theorem Scan.At.gap {g : List Char} (hg : ∀ c ∈ g, isGap c = true) :
    ∀ {s : Scan} {ts : List Token} {cs : List Char}, s.At ts (g ++ cs) →
      ∃ s', (g ++ cs).foldlM Scan.step s = cs.foldlM Scan.step s' ∧ s'.At ts cs := by
  induction g with
  | nil => exact fun h => ⟨_, rfl, h⟩
  | cons c g ih =>
    intro s ts cs h
    have hstep : s.step c = some ⟨ts, .between⟩ := by
      rw [List.cons_append] at h
      rw [h.step, Scan.start, if_pos (hg c List.mem_cons_self)]
    rw [List.cons_append, List.foldlM_cons, hstep]
    exact ih (fun d hd => hg d (List.mem_cons_of_mem c hd)) (Scan.at_between ts _)

/-! ## Tokens -/

/-- Whether the token is written as a word, and can be. -/
def Token.IsWord : Token → Prop
  | .null => True
  | .bool _ => True
  | .number n => n.WellFormed
  | _ => False

/-- How a token may be written. -/
inductive SpellsToken : Token → List Char → Prop
  | mark {t : Token} {c : Char} (h : punctuation? c = some t) : SpellsToken t [c]
  | word {t : Token} (h : t.IsWord) : SpellsToken t t.chars
  | string {s : String} {ws : List Char} (h : SpellsText s.toList ws) :
    SpellsToken (.string (some s)) ('"' :: ws ++ ['"'])

theorem Token.IsWord.wordToken? {t : Token} (h : t.IsWord) : wordToken? t.chars = some t := by
  cases t with
  | null => rfl
  | bool b => cases b <;> rfl
  | number n => exact wordToken?_numeralChars h
  | _ => cases h

theorem Token.IsWord.isWordChar {t : Token} (h : t.IsWord) :
    ∀ c ∈ t.chars, isWordChar c = true := by
  cases t with
  | null => exact List.all_eq_true.1 rfl
  | bool b => cases b <;> exact List.all_eq_true.1 rfl
  | number n => exact isWordChar_numeralChars h
  | _ => cases h

/-- A word is read to its end. -/
theorem foldlM_word {w : List Char} (hw : ∀ c ∈ w, isWordChar c = true) (ts : List Token) :
    ∀ (seen rest : List Char), (w ++ rest).foldlM Scan.step ⟨ts, .word seen⟩ =
      rest.foldlM Scan.step ⟨ts, .word (w.reverse ++ seen)⟩ := by
  induction w with
  | nil => exact fun _ _ => rfl
  | cons c w ih =>
    intro seen rest
    have hstep : Scan.step ⟨ts, .word seen⟩ c = some ⟨ts, .word (c :: seen)⟩ := by
      simp [Scan.step, hw c List.mem_cons_self]
    rw [List.cons_append, List.foldlM_cons, hstep, List.reverse_cons, List.append_assoc]
    exact ih (fun d hd => hw d (List.mem_cons_of_mem c hd)) _ rest

theorem start_wordChar {c : Char} (hc : isWordChar c = true) (ts : List Token) :
    Scan.start ts c = some ⟨ts, .word [c]⟩ := by
  have hgap : isGap c = false := by
    by_contra hgap
    simp only [isGap, Bool.not_eq_false, Bool.or_eq_true, beq_iff_eq] at hgap
    rcases hgap with ((rfl | rfl) | rfl) | rfl <;> exact absurd hc (by decide)
  have hquote : c ≠ '"' := by
    rintro rfl
    exact absurd hc (by decide)
  simp [Scan.start, hgap, hquote, hc]

theorem isWordChar_mark {c : Char} {t : Token} (h : punctuation? c = some t) :
    isWordChar c = false := by
  unfold punctuation? at h
  split at h <;> first | decide | cases h

theorem start_mark {c : Char} {t : Token} (h : punctuation? c = some t) (ts : List Token) :
    Scan.start ts c = some ⟨t :: ts, .between⟩ := by
  have hgap : isGap c = false ∧ c ≠ '"' := by
    unfold punctuation? at h
    split at h <;> first | decide | cases h
  simp [Scan.start, hgap, isWordChar_mark h, h]

/-- Whatever a token is written as is read as the token. -/
theorem SpellsToken.foldlM {t : Token} {w : List Char} (h : SpellsToken t w) {s : Scan}
    {ts : List Token} {rest : List Char} (hs : s.At ts (w ++ rest))
    (hrest : t.IsWord → EndsWord rest) :
    ∃ s', (w ++ rest).foldlM Scan.step s = rest.foldlM Scan.step s' ∧ s'.At (t :: ts) rest := by
  cases h with
  | mark h =>
    refine ⟨⟨t :: ts, .between⟩, ?_, Scan.at_between _ _⟩
    rw [List.singleton_append] at hs ⊢
    rw [List.foldlM_cons, hs.step, start_mark h ts]
    rfl
  | word h =>
    have hword := h.wordToken?
    have hchars := h.isWordChar
    cases hw : t.chars with
    | nil => rw [hw] at hword; cases hword
    | cons c w =>
      rw [hw] at hword hchars hs
      refine ⟨⟨ts, .word (w.reverse ++ [c])⟩, ?_, .word ?_, .inr (hrest h)⟩
      · rw [List.cons_append] at hs
        rw [List.cons_append, List.foldlM_cons, hs.step,
          start_wordChar (hchars c List.mem_cons_self)]
        exact foldlM_word (fun d hd => hchars d (List.mem_cons_of_mem c hd)) ts [c] rest
      · rw [List.reverse_append, List.reverse_reverse]
        exact hword
  | @string text ws h =>
    refine ⟨⟨.string (some text) :: ts, .between⟩, ?_, Scan.at_between _ _⟩
    have hclose : Scan.step ⟨ts, .string (ws.reverse ++ [])⟩ '"' =
        some ⟨.string (some text) :: ts, .between⟩ := by
      simp [Scan.step, h.unescape?]
    rw [List.cons_append, List.cons_append] at hs
    rw [List.cons_append, List.cons_append, List.foldlM_cons, hs.step, List.append_assoc]
    have hrun : (ws ++ (['"'] ++ rest)).foldlM Scan.step ⟨ts, .string []⟩ = _ := h.foldlM _
    refine hrun.trans ?_
    rw [List.singleton_append, List.foldlM_cons, hclose]
    rfl

/-! ## Texts -/

/-- The text consists of the tokens in order, with blanks wherever wanted and where two words would
meet otherwise. -/
inductive Spells : List Token → List Char → Prop
  | nil {g : List Char} (hg : ∀ c ∈ g, isGap c = true) : Spells [] g
  | cons {t : Token} {ts : List Token} {g w cs : List Char} (hg : ∀ c ∈ g, isGap c = true)
    (hw : SpellsToken t w) (hend : t.IsWord → EndsWord cs) (h : Spells ts cs) :
    Spells (t :: ts) (g ++ (w ++ cs))

/-- The automaton reads the tokens of a text one after the other. -/
theorem Spells.foldlM {ts : List Token} {cs : List Char} (h : Spells ts cs) :
    ∀ {s : Scan} {read : List Token}, s.At read cs →
      ∃ s', cs.foldlM Scan.step s = some s' ∧ s'.Reads (ts.reverse ++ read) := by
  induction h with
  | @nil g hg =>
    intro s read hs
    rw [← List.append_nil g] at hs
    obtain ⟨s', hrun, hs'⟩ := hs.gap hg
    rw [List.append_nil] at hrun
    exact ⟨s', hrun, hs'.reads⟩
  | cons hg hw hend _ ih =>
    intro s read hs
    obtain ⟨s₁, hgap, hs₁⟩ := hs.gap hg
    obtain ⟨s₂, hword, hs₂⟩ := hw.foldlM hs₁ hend
    obtain ⟨s', hrun, hs'⟩ := ih hs₂
    refine ⟨s', hgap.trans (hword.trans hrun), ?_⟩
    rwa [List.reverse_cons, List.append_assoc, List.singleton_append]

/-- The lexer reads the tokens back from each text that spells them. -/
theorem lex_of_spells {ts : List Token} {cs : List Char} (h : Spells ts cs) : lex cs = some ts := by
  obtain ⟨s, hrun, hs⟩ := h.foldlM (Scan.at_between [] cs)
  unfold lex
  rw [hrun, Option.bind_eq_bind, Option.bind_some, hs.finish?, List.append_nil,
    List.reverse_reverse]

end Json

end Blockwork
