import Blockwork.Json.Reader
import Blockwork.Proofs.Spelling

/-!
# Reading documents back

Each text that spells the tokens of a document is read as the document (`Json.parse?_of_spells`).
What `render` writes is such a text (`Json.spells_render`).
-/

namespace Blockwork.Json

theorem itemTokens_cons_cons (v w : Json) (vs : List Json) :
    itemTokens (v :: w :: vs) = tokens v ++ .comma :: itemTokens (w :: vs) := by
  rw [itemTokens]
  exact nofun

theorem memberTokens_cons_cons (k : Text) (v : Json) (m : Text × Json) (ms : List (Text × Json)) :
    memberTokens ((k, v) :: m :: ms) =
      .string k :: .colon :: tokens v ++ .comma :: memberTokens (m :: ms) := by
  rw [memberTokens]
  exact nofun

/-! ## Reading tokens -/

/-- What the machine expects where a value may start. -/
def Expect.StartsValue (e : Expect) : Prop :=
  e = .value ∨ e = .element

mutual

/-- The tokens of a document take the machine past the document. -/
theorem foldlM_tokens : ∀ (j : Json) {e : Expect}, e.StartsValue →
    ∀ (stack : List Frame) (rest : List Token), (tokens j ++ rest).foldlM Machine.step ⟨e, stack⟩ =
      rest.foldlM Machine.step ⟨.after j, stack⟩
  | .null, _, he, _, _ => by rcases he with rfl | rfl <;> rfl
  | .bool _, _, he, _, _ => by rcases he with rfl | rfl <;> rfl
  | .number _, _, he, _, _ => by rcases he with rfl | rfl <;> rfl
  | .string _, _, he, _, _ => by rcases he with rfl | rfl <;> rfl
  | .array items, e, he, stack, rest => by
    have hopen : Machine.step ⟨e, stack⟩ .openArray = some ⟨.element, .array [] :: stack⟩ := by
      rcases he with rfl | rfl <;> rfl
    rw [tokens, List.cons_append, List.foldlM_cons, hopen]
    exact foldlM_itemTokens items [] (.inl rfl) stack rest
  | .object members, e, he, stack, rest => by
    have hopen : Machine.step ⟨e, stack⟩ .openObject = some ⟨.key [] true, stack⟩ := by
      rcases he with rfl | rfl <;> rfl
    rw [tokens, List.cons_append, List.foldlM_cons, hopen]
    exact foldlM_memberTokens members [] (.inl rfl) stack rest

/-- The tokens of items add the items to the innermost array, and close it. -/
theorem foldlM_itemTokens : ∀ (items done : List Json) {e : Expect},
    e = .element ∨ e = .value ∧ items ≠ [] → ∀ (stack : List Frame) (rest : List Token),
      (itemTokens items ++ rest).foldlM Machine.step ⟨e, .array done :: stack⟩ =
        rest.foldlM Machine.step ⟨.after (.array (done.reverse ++ items)), stack⟩
  | [], done, e, he, stack, rest => by
    obtain rfl := he.resolve_right fun h => h.2 rfl
    rw [List.append_nil]
    rfl
  | [v], done, e, he, stack, rest => by
    rw [itemTokens, List.append_assoc, foldlM_tokens v (he.symm.imp_left And.left),
      ← List.reverse_cons]
    rfl
  | v :: w :: vs, done, e, he, stack, rest => by
    rw [itemTokens_cons_cons, List.append_assoc, foldlM_tokens v (he.symm.imp_left And.left)]
    refine (foldlM_itemTokens (w :: vs) (v :: done) (.inr ⟨rfl, List.cons_ne_nil _ _⟩) stack
      rest).trans ?_
    rw [List.reverse_cons, List.append_assoc, List.singleton_append]

/-- The tokens of members add the members to the innermost object, and close it. -/
theorem foldlM_memberTokens : ∀ (members done : List (Text × Json)) {first : Bool},
    first = true ∨ members ≠ [] → ∀ (stack : List Frame) (rest : List Token),
      (memberTokens members ++ rest).foldlM Machine.step ⟨.key done first, stack⟩ =
        rest.foldlM Machine.step ⟨.after (.object (done.reverse ++ members)), stack⟩
  | [], done, first, hfirst, stack, rest => by
    obtain rfl := hfirst.resolve_right fun h => h rfl
    rw [List.append_nil]
    rfl
  | [(k, v)], done, first, _, stack, rest => by
    have hvalue := foldlM_tokens v (.inl rfl) (.member done k :: stack) (.closeObject :: rest)
    rw [← List.reverse_cons]
    refine Eq.trans ?_ hvalue
    rw [memberTokens, List.cons_append, List.cons_append, List.append_assoc]
    cases first <;> rfl
  | (k, v) :: m :: ms, done, first, _, stack, rest => by
    have hvalue := foldlM_tokens v (.inl rfl) (.member done k :: stack)
      (.comma :: (memberTokens (m :: ms) ++ rest))
    have hrest := @foldlM_memberTokens (m :: ms) ((k, v) :: done) false
      (.inr (List.cons_ne_nil _ _)) stack rest
    rw [List.reverse_cons, List.append_assoc, List.singleton_append] at hrest
    refine Eq.trans ?_ (hvalue.trans hrest)
    rw [memberTokens_cons_cons, List.cons_append, List.cons_append, List.append_assoc]
    cases first <;> rfl

end

theorem read?_tokens (j : Json) : read? (tokens j) = some j := by
  have hrun := foldlM_tokens j (.inl rfl) [] []
  rw [List.append_nil] at hrun
  unfold read?
  rw [hrun]
  rfl

/-- A document is read from each text that spells it. -/
theorem parse?_of_spells {j : Json} {text : String} (h : Spells (tokens j) text.toList) :
    parse? text = some j := by
  unfold parse?
  rw [lex_of_spells h, Option.bind_eq_bind, Option.bind_some, read?_tokens]

/-! ## What is rendered -/

/-- The document can be written: its texts are texts, and its numerals can be written. -/
inductive Proper : Json → Prop
  | null : Proper .null
  | bool (b : Bool) : Proper (.bool b)
  | number {n : Numeral} (h : n.WellFormed) : Proper (.number n)
  | string (s : String) : Proper (.string (some s))
  | array {items : List Json} (h : ∀ v ∈ items, Proper v) : Proper (.array items)
  | object {members : List (Text × Json)} (hkeys : ∀ m ∈ members, m.1.isSome = true)
    (h : ∀ m ∈ members, Proper m.2) : Proper (.object members)

theorem hexDigit?_hexChar : ∀ {n : Nat}, n < 16 → hexDigit? (hexChar n) = some n := by
  decide

/-- Escaping is one of the ways to write a character. -/
theorem spellsChar_escapeChar (c : Char) : SpellsChar c (escapeChar c) := by
  unfold escapeChar
  split
  · rename_i e h
    refine .short ?_
    unfold shortEscape? at h
    split at h <;> first | (obtain rfl := Option.some.inj h; rfl) | cases h
  · rename_i h
    split
    · rename_i hc
      have hunit : hexUnit? '0' '0' (hexChar (c.toNat / 16)) (hexChar (c.toNat % 16)) =
          some c.toNat := by
        unfold hexUnit?
        rw [hexDigit?_hexChar (by omega), hexDigit?_hexChar (by omega)]
        refine congrArg some ?_
        omega
      have hhigh : isHighUnit c.toNat = false := by
        simp [isHighUnit]
        omega
      have hlow : isLowUnit c.toNat = false := by
        simp [isLowUnit]
        omega
      have hspells := SpellsChar.unit hunit hhigh hlow
      rwa [Char.ofNat_toNat] at hspells
    · rename_i hc
      refine .plain ?_ ?_ hc
      · rintro rfl
        cases h
      · rintro rfl
        cases h

theorem spellsText_escape (cs : List Char) : SpellsText cs (cs.flatMap escapeChar) := by
  induction cs with
  | nil => exact .nil
  | cons c cs ih => exact .cons (spellsChar_escapeChar c) ih

section Spells

variable {t : Token} {ts : List Token} {c : Char} {cs : List Char}

theorem Spells.mark (ht : punctuation? c = some t) (h : Spells ts cs) :
    Spells (t :: ts) (c :: cs) := by
  refine .cons (g := []) (by simp) (.mark ht) (fun hword => ?_) h
  unfold punctuation? at ht
  split at ht <;> first | (obtain rfl := Option.some.inj ht; exact hword.elim) | cases ht

theorem Spells.word (ht : t.IsWord) (hend : EndsWord cs) (h : Spells ts cs) :
    Spells (t :: ts) (t.chars ++ cs) :=
  .cons (g := []) (by simp) (.word ht) (fun _ => hend) h

theorem Spells.string (s : String) (h : Spells ts cs) :
    Spells (.string (some s) :: ts) (textChars (some s) ++ cs) :=
  .cons (g := []) (by simp) (.string (spellsText_escape s.toList)) False.elim h

theorem endsWord_mark (ht : punctuation? c = some t) : EndsWord (c :: cs) := by
  intro d hd
  obtain rfl := Option.some.inj hd
  exact isWordChar_mark ht

end Spells

mutual

theorem spells_tokens : ∀ (j : Json), j.Proper → ∀ {ts : List Token} {cs : List Char},
    Spells ts cs → EndsWord cs → Spells (tokens j ++ ts) ((tokens j).flatMap Token.chars ++ cs)
  | .null, _, _, _, h, hend => h.word (t := .null) trivial hend
  | .bool b, _, _, _, h, hend => by
    rw [tokens, List.flatMap_singleton]
    exact h.word (t := .bool b) trivial hend
  | .number n, .number hn, _, _, h, hend => by
    rw [tokens, List.flatMap_singleton]
    exact h.word (t := .number n) hn hend
  | .string (some s), _, _, _, h, _ => by
    rw [tokens, List.flatMap_singleton]
    exact h.string s
  | .array items, .array hitems, _, _, h, _ => by
    rw [tokens, List.flatMap_cons, List.cons_append, List.append_assoc]
    exact (spells_itemTokens items hitems h).mark rfl
  | .object members, .object hkeys hmembers, _, _, h, _ => by
    rw [tokens, List.flatMap_cons, List.cons_append, List.append_assoc]
    exact (spells_memberTokens members hkeys hmembers h).mark rfl

theorem spells_itemTokens : ∀ (items : List Json), (∀ v ∈ items, v.Proper) →
    ∀ {ts : List Token} {cs : List Char}, Spells ts cs →
      Spells (itemTokens items ++ ts) ((itemTokens items).flatMap Token.chars ++ cs)
  | [], _, _, _, h => h.mark rfl
  | [v], hitems, _, _, h => by
    rw [itemTokens, List.flatMap_append, List.append_assoc, List.append_assoc]
    exact spells_tokens v (hitems v List.mem_cons_self) (h.mark (c := ']') rfl) (endsWord_mark rfl)
  | v :: w :: vs, hitems, _, _, h => by
    have hrest := spells_itemTokens (w :: vs)
      (fun x hx => hitems x (List.mem_cons_of_mem v hx)) h
    rw [itemTokens_cons_cons, List.flatMap_append, List.append_assoc, List.append_assoc]
    exact spells_tokens v (hitems v List.mem_cons_self) (hrest.mark (c := ',') rfl)
      (endsWord_mark rfl)

theorem spells_memberTokens : ∀ (members : List (Text × Json)),
    (∀ m ∈ members, m.1.isSome = true) → (∀ m ∈ members, m.2.Proper) →
      ∀ {ts : List Token} {cs : List Char}, Spells ts cs →
        Spells (memberTokens members ++ ts) ((memberTokens members).flatMap Token.chars ++ cs)
  | [], _, _, _, _, h => h.mark rfl
  | [(some k, v)], _, hmembers, _, _, h => by
    have hvalue := spells_tokens v (hmembers (some k, v) List.mem_cons_self)
      (h.mark (c := '\x7d') rfl) (endsWord_mark rfl)
    rw [memberTokens]
    simp only [List.cons_append, List.flatMap_cons, List.flatMap_append, List.append_assoc]
    exact (hvalue.mark (c := ':') rfl).string k
  | (some k, v) :: m :: ms, hkeys, hmembers, _, _, h => by
    have hrest := spells_memberTokens (m :: ms)
      (fun x hx => hkeys x (List.mem_cons_of_mem _ hx))
      (fun x hx => hmembers x (List.mem_cons_of_mem _ hx)) h
    have hvalue := spells_tokens v (hmembers (some k, v) List.mem_cons_self)
      (hrest.mark (c := ',') rfl) (endsWord_mark rfl)
    rw [memberTokens_cons_cons]
    simp only [List.cons_append, List.flatMap_cons, List.flatMap_append, List.append_assoc]
    exact (hvalue.mark (c := ':') rfl).string k
  | (none, _) :: _, hkeys, _, _, _, _ => nomatch hkeys _ List.mem_cons_self

end

theorem endsWord_gap {g : List Char} (hg : ∀ c ∈ g, isGap c = true) : EndsWord g := by
  intro c hc
  have hgap := hg c (List.mem_of_mem_head? hc)
  simp only [isGap, Bool.or_eq_true, beq_iff_eq] at hgap
  rcases hgap with ((rfl | rfl) | rfl) | rfl <;> rfl

/-- What is rendered spells the document, whatever blanks follow. -/
theorem spells_render_append {j : Json} (hj : j.Proper) {g : List Char}
    (hg : ∀ c ∈ g, isGap c = true) : Spells (tokens j) (j.render.toList ++ g) := by
  have h := spells_tokens j hj (.nil hg) (endsWord_gap hg)
  rw [List.append_nil] at h
  unfold render
  rwa [String.toList_ofList]

/-- What is rendered spells the document. -/
theorem spells_render {j : Json} (hj : j.Proper) : Spells (tokens j) j.render.toList := by
  simpa using spells_render_append hj (g := []) (by simp)

end Blockwork.Json
