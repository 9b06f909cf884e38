import Blockwork.Types.Expression
import Mathlib.Data.List.DropRight
import Mathlib.Data.List.TakeWhile

/-!
# Texts taken apart

`splitAt` cuts a text at a separator, and the pieces hold none (`not_mem_of_mem_splitAt`).
`trimChars` drops the blanks at both ends (`trimChars_blanks`) and nothing else (`exists_blanks`).
-/

namespace Blockwork

/-! ## Pieces -/

theorem splitAt_ne_nil (sep : Char) : ∀ l : List Char, splitAt sep l ≠ []
  | [] => List.cons_ne_nil _ _
  | c :: l => by
    unfold splitAt
    split
    · exact List.cons_ne_nil _ _
    · split <;> exact List.cons_ne_nil _ _

/-- The first piece ends before the first separator, or is all there is. -/
theorem splitAt_eq_cons {sep : Char} :
    ∀ {l x : List Char} {rest : List (List Char)}, splitAt sep l = x :: rest →
      sep ∉ x ∧ (rest = [] ∧ l = x ∨ ∃ l', l = x ++ sep :: l' ∧ splitAt sep l' = rest)
  | [], x, rest, h => by
    obtain ⟨rfl, rfl⟩ := List.cons.inj h
    exact ⟨List.not_mem_nil, .inl ⟨rfl, rfl⟩⟩
  | c :: l, x, rest, h => by
    unfold splitAt at h
    split at h
    · rename_i hc
      obtain ⟨rfl, rfl⟩ := List.cons.inj h
      exact ⟨List.not_mem_nil, .inr ⟨l, by rw [hc]; rfl, rfl⟩⟩
    · rename_i hc
      split at h
      · rename_i hnil
        exact absurd hnil (splitAt_ne_nil sep l)
      · rename_i piece pieces hsplit
        obtain ⟨rfl, rfl⟩ := List.cons.inj h
        obtain ⟨hnot, h⟩ := splitAt_eq_cons hsplit
        refine ⟨fun hmem => (List.mem_cons.1 hmem).elim (fun heq => hc heq.symm) hnot, ?_⟩
        rcases h with ⟨hrest, rfl⟩ | ⟨l', rfl, hrest⟩
        · exact .inl ⟨hrest, rfl⟩
        · exact .inr ⟨l', rfl, hrest⟩

/-- What is split in two has one separator. -/
theorem splitAt_eq_pair {sep : Char} {l x y : List Char} (h : splitAt sep l = [x, y]) :
    l = x ++ sep :: y ∧ sep ∉ x ∧ sep ∉ y := by
  obtain ⟨hx, ⟨hrest, -⟩ | ⟨l', rfl, hrest⟩⟩ := splitAt_eq_cons h
  · cases hrest
  · obtain ⟨hy, ⟨-, rfl⟩ | ⟨l'', -, hrest⟩⟩ := splitAt_eq_cons hrest
    · exact ⟨rfl, hx, hy⟩
    · exact absurd hrest (splitAt_ne_nil sep l'')

theorem splitAt_cons_of_ne {sep c : Char} (hc : c ≠ sep) (l : List Char) :
    ∃ x rest, splitAt sep l = x :: rest ∧ splitAt sep (c :: l) = (c :: x) :: rest := by
  obtain ⟨x, rest, hl⟩ := List.exists_cons_of_ne_nil (splitAt_ne_nil sep l)
  refine ⟨x, rest, hl, ?_⟩
  rw [splitAt, if_neg hc, hl]

/-- What comes before the first separator is the first piece. -/
theorem splitAt_append {sep : Char} :
    ∀ {x : List Char}, sep ∉ x → ∀ l, splitAt sep (x ++ sep :: l) = x :: splitAt sep l
  | [], _, l => by rw [List.nil_append, splitAt, if_pos rfl]
  | c :: x, hx, l => by
    obtain ⟨hc, hx⟩ := List.ne_and_not_mem_of_not_mem_cons hx
    rw [List.cons_append, splitAt, if_neg (Ne.symm hc), splitAt_append hx l]

theorem splitAt_of_not_mem {sep : Char} : ∀ {x : List Char}, sep ∉ x → splitAt sep x = [x]
  | [], _ => rfl
  | c :: x, hx => by
    obtain ⟨hc, hx⟩ := List.ne_and_not_mem_of_not_mem_cons hx
    rw [splitAt, if_neg (Ne.symm hc), splitAt_of_not_mem hx]

theorem not_mem_of_mem_splitAt {sep : Char} :
    ∀ {l x : List Char}, x ∈ splitAt sep l → sep ∉ x
  | [], x, hx => by
    rw [List.mem_singleton.1 hx]
    exact List.not_mem_nil
  | c :: l, x, hx => by
    by_cases hc : c = sep
    · rw [splitAt, if_pos hc] at hx
      rcases List.mem_cons.1 hx with rfl | hx
      · exact List.not_mem_nil
      · exact not_mem_of_mem_splitAt hx
    · obtain ⟨y, rest, hl, hcl⟩ := splitAt_cons_of_ne hc l
      have hpieces : ∀ z ∈ y :: rest, sep ∉ z := fun z hz => not_mem_of_mem_splitAt (hl ▸ hz)
      rw [hcl] at hx
      rcases List.mem_cons.1 hx with rfl | hx
      · exact List.not_mem_cons_of_ne_of_not_mem (Ne.symm hc) (hpieces y List.mem_cons_self)
      · exact hpieces x (List.mem_cons_of_mem _ hx)

/-! ## Trimmed texts -/

namespace Text

variable {c : Char} {cs : List Char}

theorem trimChars_eq (cs : List Char) :
    trimChars cs = (cs.dropWhile isBlank).rdropWhile isBlank :=
  rfl

theorem trimChars_cons (hc : isBlank c = true) (cs : List Char) :
    trimChars (c :: cs) = trimChars cs := by
  rw [trimChars_eq, List.dropWhile_cons_of_pos hc, ← trimChars_eq]

theorem trimChars_concat (hc : isBlank c = true) (cs : List Char) :
    trimChars (cs ++ [c]) = trimChars cs := by
  rw [trimChars_eq, trimChars_eq, List.dropWhile_append]
  split
  · rename_i hnil
    rw [List.isEmpty_iff.1 hnil, List.dropWhile_cons_of_pos hc, List.dropWhile_nil]
  · exact List.rdropWhile_concat_pos _ _ _ hc

/-- Blanks at the ends make no difference. -/
theorem trimChars_blanks {before after : List Char} (hbefore : ∀ c ∈ before, isBlank c = true)
    (hafter : ∀ c ∈ after, isBlank c = true) :
    trimChars (before ++ (cs ++ after)) = trimChars cs := by
  induction before with
  | nil =>
    induction after using List.reverseRecOn with
    | nil => rw [List.nil_append, List.append_nil]
    | append_singleton after c ih =>
      rw [List.forall_mem_append, List.forall_mem_singleton] at hafter
      rw [← ih hafter.1, List.nil_append, List.nil_append, ← List.append_assoc,
        trimChars_concat hafter.2]
  | cons c before ih =>
    rw [List.forall_mem_cons] at hbefore
    rw [List.cons_append, trimChars_cons hbefore.1, ih hbefore.2]

/-- Only blanks are dropped. -/
theorem exists_blanks (cs : List Char) : ∃ before after, (∀ c ∈ before, isBlank c = true) ∧
    (∀ c ∈ after, isBlank c = true) ∧ cs = before ++ (trimChars cs ++ after) := by
  refine ⟨cs.takeWhile isBlank, (cs.dropWhile isBlank).rtakeWhile isBlank,
    fun c hc => List.mem_takeWhile_imp hc, fun c hc => List.mem_rtakeWhile_imp hc, ?_⟩
  rw [trimChars_eq, List.rdropWhile_append_rtakeWhile, List.takeWhile_append_dropWhile]

/-- A text without blanks at its ends is trimmed. -/
theorem trimChars_eq_self (hleading : cs.head?.any isBlank = false)
    (htrailing : cs.getLast?.any isBlank = false) : trimChars cs = cs := by
  have hdrop : cs.dropWhile isBlank = cs := by
    cases cs with
    | nil => rfl
    | cons c cs => exact List.dropWhile_cons_of_neg (by simpa using hleading)
  rw [trimChars_eq, hdrop, List.rdropWhile_eq_self_iff]
  intro hne
  rw [List.getLast?_eq_some_getLast hne] at htrailing
  simpa using htrailing

theorem mem_of_mem_trimChars (hc : c ∈ trimChars cs) : c ∈ cs :=
  (List.dropWhile_suffix _).subset ((List.rdropWhile_prefix _ _).subset hc)

/-- A trimmed text has no blanks at its ends. -/
theorem head?_trimChars (cs : List Char) : (trimChars cs).head?.any isBlank = false := by
  cases htrim : trimChars cs with
  | nil => rfl
  | cons c rest =>
    obtain ⟨dropped, hdropped⟩ := List.rdropWhile_prefix isBlank (cs.dropWhile isBlank)
    have hhead := List.head?_dropWhile_not isBlank cs
    rw [← hdropped, ← trimChars_eq, htrim] at hhead
    exact hhead

theorem getLast?_trimChars (cs : List Char) : (trimChars cs).getLast?.any isBlank = false := by
  by_cases hne : trimChars cs = []
  · rw [hne]
    rfl
  · rw [List.getLast?_eq_some_getLast hne]
    exact eq_false_of_ne_true (List.rdropWhile_last_not _ _ hne)

end Text

end Blockwork
