import Blockwork.Draft.Decode
import Blockwork.Draft.Encode
import Blockwork.Proofs.Documents

/-!
# Drafts read back

A bundle or block is read back from every text that spells its document (`Bundle.round_trip`), as
long as the values in it are truth values and integers. No number is read as anything but itself, no
text as a number, and no part of a draft is taken for another one.
-/

namespace Blockwork

open Json (ofString ofList ofOption text? flag? count? list?)

/-! ## Integers -/

theorem Decimal.natChars_pos {n : Nat} (hn : 0 < n) :
    ∃ c cs, Decimal.natChars n = c :: cs ∧ c ≠ '0' := by
  unfold natChars
  induction n using Nat.strongRecOn with
  | ind n ih =>
    by_cases hlt : n < 10
    · have hdigit : ∀ k < 10, 0 < k → Nat.digitChar k ≠ '0' := by decide
      exact ⟨_, [], Nat.toDigits_of_lt_base hlt, hdigit n hlt hn⟩
    · obtain ⟨c, cs, hdiv, hc⟩ := ih (n / 10) (by omega) (by omega)
      rw [Nat.toDigits_of_base_le (by decide) (by omega), hdiv]
      exact ⟨c, _, rfl, hc⟩

theorem Numeral.wellFormed_ofInt (n : Int) : (Numeral.ofInt n).WellFormed where
  whole := by
    unfold ofInt
    by_cases hn : n.natAbs = 0
    · rw [hn]
      rfl
    · obtain ⟨c, cs, hchars, hc⟩ := Decimal.natChars_pos (Nat.pos_of_ne_zero hn)
      rw [hchars]
      cases cs <;> simp [Json.isWhole, hc]
  digits c hc := Nat.isDigit_of_mem_toDigits (by decide) (by decide) hc
  fraction c hc := nomatch hc
  exponent negative ds h := nomatch h

/-- An integer of at most 64 bits is its own numeral's. -/
theorem Numeral.int?_ofInt {n : Int} (hleast : -0x8000000000000000 ≤ n)
    (hgreatest : n < 0x10000000000000000) :
    (Numeral.ofInt n).int? = some n := by
  have hvalue : Nat.ofDigitChars 10 (Decimal.natChars n.natAbs) 0 = n.natAbs :=
    Nat.ofDigitChars_ten_toDigits
  have hbound : digitBound = 2 ^ 64 := rfl
  unfold int? ofInt
  simp only [hvalue, hbound, decide_eq_true_eq, ne_eq, not_true_eq_false, or_self, if_false]
  split
  · rw [if_pos (by omega)]
    refine congrArg some ?_
    omega
  · rw [if_pos (by omega)]
    refine congrArg some ?_
    omega

theorem Numeral.value?_ofInt {n : Int} (hleast : -0x8000000000000000 ≤ n)
    (hgreatest : n < 0x10000000000000000) :
    (Numeral.ofInt n).value? = some (.int n) := by
  unfold value?
  rw [int?_ofInt hleast hgreatest]

namespace Json

variable {α : Type}

/-! ## Single values -/

@[simp] theorem proper_bool (b : Bool) : (Json.bool b).Proper :=
  .bool b

@[simp] theorem proper_ofString (s : String) : (ofString s).Proper :=
  .string s

@[simp] theorem proper_ofInt (n : Int) : (ofInt n).Proper :=
  .number (Numeral.wellFormed_ofInt n)

@[simp] theorem proper_ofCount (n : UInt32) : (ofCount n).Proper :=
  proper_ofInt n.toNat

theorem proper_ofOption {f : α → Json} (h : ∀ a, (f a).Proper) (o : Option α) :
    (ofOption f o).Proper := by
  cases o with
  | none => exact .null
  | some a => exact h a

theorem proper_ofList {f : α → Json} {l : List α} (h : ∀ a ∈ l, (f a).Proper) :
    (ofList f l).Proper :=
  .array fun v hv => by
    obtain ⟨a, ha, rfl⟩ := List.mem_map.1 hv
    exact h a ha

@[simp] theorem proper_optionalText (o : Option String) : (ofOption ofString o).Proper :=
  proper_ofOption proper_ofString o

@[simp] theorem proper_optionalCount (o : Option UInt32) : (ofOption ofCount o).Proper :=
  proper_ofOption proper_ofCount o

@[simp] theorem proper_texts (l : List String) : (ofList ofString l).Proper :=
  proper_ofList fun s _ => proper_ofString s

@[simp] theorem flag?_bool (b : Bool) : flag? (.bool b) = some b :=
  rfl

@[simp] theorem text?_ofString (s : String) : text? (ofString s) = some s :=
  rfl

@[simp] theorem count?_ofCount (n : UInt32) : count? (ofCount n) = some n := by
  have hn := n.toNat_lt
  have hint : (Numeral.ofInt n.toNat).int? = some (n.toNat : Int) :=
    Numeral.int?_ofInt (by omega) (by omega)
  unfold ofCount ofNat ofInt count?
  simp only [hint]
  exact (if_pos hn).trans (congrArg some UInt32.ofNat_toNat)

theorem list?_ofList {f : α → Json} {read : Json → Option α} {l : List α}
    (h : ∀ a ∈ l, read (f a) = some a) : list? read (ofList f l) = some l := by
  unfold ofList list?
  induction l with
  | nil => rfl
  | cons a l ih =>
    have hl := ih fun b hb => h b (List.mem_cons_of_mem a hb)
    simp only [List.map_cons, List.mapM_cons, h a List.mem_cons_self, hl]
    rfl

/-- An optional value is read back unless its document is the absent one. -/
theorem nullable?_ofOption {f : α → Json} {read : Json → Option α} (h : ∀ a, read (f a) = some a)
    (hnull : ∀ a, f a ≠ .null) (o : Option α) : nullable? read (ofOption f o) = some o := by
  cases o with
  | none => rfl
  | some a =>
    unfold ofOption nullable?
    split
    · rename_i heq
      exact absurd heq (hnull a)
    · rw [h a]
      rfl

@[simp] theorem nullable?_optionalText (o : Option String) :
    nullable? text? (ofOption ofString o) = some o :=
  nullable?_ofOption text?_ofString (fun _ => nofun) o

@[simp] theorem nullable?_optionalCount (o : Option UInt32) :
    nullable? count? (ofOption ofCount o) = some o :=
  nullable?_ofOption count?_ofCount (fun _ => nofun) o

@[simp] theorem list?_texts (l : List String) : list? text? (ofList ofString l) = some l :=
  list?_ofList fun s _ => text?_ofString s

/-! ## Records -/

theorem proper_record {members : List (String × Json)} (h : ∀ m ∈ members, m.2.Proper) :
    (record members).Proper := by
  refine .object (fun m hm => ?_) fun m hm => ?_
  · obtain ⟨_, -, rfl⟩ := List.mem_map.1 hm
    rfl
  · obtain ⟨x, hx, rfl⟩ := List.mem_map.1 hm
    exact h x hx

theorem knownMembers?_map (keys : List String) : ∀ members : List (String × Json),
    knownMembers? keys (members.map fun (k, v) => (some k, v)) =
      some (members.filter fun m => keys.contains m.1)
  | [] => rfl
  | (k, v) :: members => by
    rw [List.map_cons, knownMembers?, knownMembers?_map keys members, List.filter_cons]
    rfl

/-- Among the members of a document the fields of the record are found, if none of them is given
twice. -/
theorem ofMembers?_map {keys : List String} {members fields : List (String × Json)}
    (hfields : (members.filter fun m => keys.contains m.1) = fields)
    (hdistinct : distinctNames fields = true) :
    Record.ofMembers? keys (members.map fun (k, v) => (some k, v)) = some ⟨false, fields⟩ := by
  unfold Record.ofMembers?
  rw [knownMembers?_map, hfields, Option.bind_eq_bind, Option.bind_some, if_pos hdistinct]

/-- A document with just the fields of the record. -/
theorem record?_record {keys : List String} {members : List (String × Json)}
    (hfields : (members.filter fun m => keys.contains m.1) = members)
    (hdistinct : distinctNames members = true) :
    record? keys (record members) = some ⟨false, members⟩ :=
  ofMembers?_map hfields hdistinct

/-- The value is read from the document, and the document can be written. -/
structure Carries (j : Json) (read : Json → Option α) (a : α) : Prop where
  proper : j.Proper
  read_eq : read j = some a

theorem carries_ofList {f : α → Json} {read : Json → Option α} {l : List α}
    (h : ∀ a ∈ l, (f a).Carries read a) : (ofList f l).Carries (list? read) l where
  proper := proper_ofList fun a ha => (h a ha).proper
  read_eq := list?_ofList fun a ha => (h a ha).read_eq

/-- The value is read from a record if it is built from the members of the record. -/
theorem carries_record {keys : List String} {members : List (String × Json)}
    {read : Json → Option α} {build : Record → Option α} {a : α}
    (hread : ∀ j, read j = record? keys j >>= build)
    (hfields : (members.filter fun m => keys.contains m.1) = members)
    (hdistinct : distinctNames members = true) (hproper : ∀ m ∈ members, m.2.Proper)
    (hbuild : build ⟨false, members⟩ = some a) : (record members).Carries read a where
  proper := proper_record hproper
  read_eq := by rw [hread, record?_record hfields hdistinct, Option.bind_eq_bind,
    Option.bind_some, hbuild]

attribute [simp] Record.required? Record.optional? Record.defaulted? Record.get?

end Json

open Json (Carries)

/-! ## Components -/

theorem ComponentAttrDraft.carries (a : ComponentAttrDraft) : a.toJson.Carries decode? a :=
  Json.carries_record (fun _ => rfl) rfl rfl (by simp) (by simp [List.lookup_cons])

theorem ComponentParamDraft.carries (p : ComponentParamDraft) : p.toJson.Carries decode? p := by
  have hattributes := Json.carries_ofList fun a (_ : a ∈ p.attributes) => a.carries
  exact Json.carries_record (fun _ => rfl) rfl rfl (by simp [hattributes.proper])
    (by simp [List.lookup_cons, hattributes.read_eq])

theorem ComponentOutputDraft.carries (o : ComponentOutputDraft) : o.toJson.Carries decode? o :=
  Json.carries_record (fun _ => rfl) rfl rfl (by simp) (by simp [List.lookup_cons])

theorem ComponentDraft.carries (c : ComponentDraft) : c.toJson.Carries decode? c := by
  have hparameters := Json.carries_ofList fun p (_ : p ∈ c.parameters) => p.carries
  have houtput := c.output.carries
  exact Json.carries_record (fun _ => rfl) rfl rfl (by simp [hparameters.proper, houtput.proper])
    (by simp [List.lookup_cons, hparameters.read_eq, houtput.read_eq])

/-! ## Types -/

namespace Json

variable {depth : Nat}

theorem membersFit_record {members : List (String × Json)}
    (h : ∀ m ∈ members, m.2.fits depth = true) :
    membersFit depth (members.map fun (k, v) => (some k, v)) = true := by
  induction members with
  | nil => rfl
  | cons m members ih =>
    rw [List.map_cons, membersFit, h m List.mem_cons_self,
      ih fun x hx => h x (List.mem_cons_of_mem m hx)]
    rfl

theorem fits_record {members : List (String × Json)} (hdepth : depth < nestingLimit)
    (h : ∀ m ∈ members, m.2.fits (depth + 1) = true) : (record members).fits depth = true := by
  unfold record
  rw [fits, decide_eq_true hdepth, membersFit_record h]
  rfl

theorem fits_texts (hdepth : depth < nestingLimit) (l : List String) :
    (ofList ofString l).fits depth = true := by
  have hitems : itemsFit (depth + 1) (l.map ofString) = true := by
    induction l with
    | nil => rfl
    | cons s l ih =>
      rw [List.map_cons, itemsFit, ih]
      rfl
  unfold ofList
  rw [fits, decide_eq_true hdepth, hitems]
  rfl

@[simp] theorem fits_ofString (s : String) : (ofString s).fits depth = true :=
  rfl

@[simp] theorem fits_bool (b : Bool) : (Json.bool b).fits depth = true :=
  rfl

@[simp] theorem fits_optionalText (o : Option String) :
    (ofOption ofString o).fits depth = true := by
  cases o <;> rfl

end Json

namespace TypeDraft

variable {depth : Nat}

theorem fits_toJson (hdepth : depth + 1 < Json.nestingLimit) (t : TypeDraft) :
    t.toJson.fits depth = true := by
  have hinner := Json.fits_texts hdepth
  cases t <;> exact Json.fits_record (by omega) (by simp [hinner])

/-- A class is never taken for an interface, and no interface for a class. -/
theorem carries (hdepth : depth + 1 < Json.nestingLimit) (t : TypeDraft) :
    t.toJson.Carries (decode? depth) t where
  proper := by cases t <;> exact Json.proper_record (by simp)
  read_eq := by
    unfold decode?
    rw [fits_toJson hdepth t]
    cases t with
    | ofClass name parent interfaces isFinal =>
      show Json.record? classFields (.record [
        ("name", ofString name), ("parent", ofOption ofString parent),
        ("interfaces", ofList ofString interfaces), ("isFinal", .bool isFinal)]) >>=
          ofClassRecord? = _
      rw [Json.record?_record rfl rfl]
      simp [ofClassRecord?, List.lookup_cons]
    | ofInterface name extended =>
      show Json.record? interfaceFields (.record [
        ("name", ofString name), ("extends", ofList ofString extended)]) >>=
          ofInterfaceRecord? = _
      rw [Json.record?_record rfl rfl]
      simp [ofInterfaceRecord?, List.lookup_cons]

end TypeDraft

/-! ## Blocks -/

theorem BlockAttrDraft.carries (a : BlockAttrDraft) : a.toJson.Carries decode? a :=
  Json.carries_record (fun _ => rfl) rfl rfl (by simp) (by simp [List.lookup_cons])

theorem BlockParamDraft.carries (p : BlockParamDraft) : p.toJson.Carries decode? p := by
  have hattributes := Json.carries_ofList fun a (_ : a ∈ p.attributes) => a.carries
  exact Json.carries_record (fun _ => rfl) rfl rfl (by simp [hattributes.proper])
    (by simp [List.lookup_cons, hattributes.read_eq])

theorem OutputDraft.carries (o : OutputDraft) : o.toJson.Carries decode? o :=
  Json.carries_record (fun _ => rfl) rfl rfl (by simp) (by simp [List.lookup_cons])

/-- A text, a truth value, an integer, or a long that is no integer. Of these no two are written
alike. -/
def RawValue.isExact : RawValue → Bool
  | .text _ => true
  | .immediate (.boolean _) => true
  | .immediate (.integer _) => true
  | .immediate (.long n) => n.toInt < Int32.minValue.toInt || Int32.maxValue.toInt < n.toInt
  | .immediate (.double _) => false
  | .immediate (.text _) => false

/-- All values that the block gives are read back exactly. -/
def BlockDraft.Exact (b : BlockDraft) : Prop :=
  ∀ d ∈ b.declarations, ∀ p ∈ d.params, ∀ a ∈ p.attributes, a.value.isExact = true

instance : DecidablePred BlockDraft.Exact :=
  fun b => inferInstanceAs
    (Decidable (∀ d ∈ b.declarations, ∀ p ∈ d.params, ∀ a ∈ p.attributes, a.value.isExact = true))

/-- All values that the blocks give are read back exactly. -/
def Bundle.Exact (b : Bundle) : Prop :=
  ∀ k ∈ b.blocks, k.Exact

instance : DecidablePred Bundle.Exact :=
  fun b => inferInstanceAs (Decidable (∀ k ∈ b.blocks, k.Exact))

theorem Scalar.literal_int32 (n : Int32) : (int n.toInt).literal = .integer n := by
  have hmax : Int32.maxValue.toInt = 2 ^ 31 - 1 := rfl
  have hgreatest := n.toInt_lt
  exact (if_pos ⟨n.le_toInt, by omega⟩).trans (congrArg Literal.integer (Int32.ofInt_toInt n))

theorem Scalar.literal_int64 {n : Int64}
    (hn : n.toInt < Int32.minValue.toInt ∨ Int32.maxValue.toInt < n.toInt) :
    (int n.toInt).literal = .long n := by
  have hmax : Int64.maxValue.toInt = 2 ^ 63 - 1 := rfl
  have hgreatest := n.toInt_lt
  exact (if_neg (by omega)).trans ((if_pos ⟨n.le_toInt, by omega⟩).trans
    (congrArg Literal.long (Int64.ofInt_toInt n)))

namespace RawValue

theorem decode?_ofInt {n : Int} (hleast : -0x8000000000000000 ≤ n)
    (hgreatest : n < 0x10000000000000000) :
    decode? (Json.ofInt n) = some (.immediate (Scalar.int n).literal) := by
  show (Numeral.ofInt n).value?.map _ = _
  rw [Numeral.value?_ofInt hleast hgreatest]
  rfl

/-- A text stays a text, and an integer keeps its value and its kind. -/
theorem carries (real : Float → Json) {v : RawValue} (hv : v.isExact = true) :
    (v.toJson real).Carries decode? v := by
  match v, hv with
  | .text s, _ => exact ⟨Json.proper_ofString s, rfl⟩
  | .immediate (.boolean b), _ => exact ⟨Json.proper_bool b, rfl⟩
  | .immediate (.integer n), _ =>
    have hleast := n.le_toInt
    have hgreatest := n.toInt_lt
    refine ⟨Json.proper_ofInt n.toInt, (decode?_ofInt (by omega) (by omega)).trans ?_⟩
    rw [Scalar.literal_int32]
  | .immediate (.long n), hv =>
    have hgreatest := n.toInt_lt
    refine ⟨Json.proper_ofInt n.toInt, (decode?_ofInt n.le_toInt (by omega)).trans ?_⟩
    rw [Scalar.literal_int64 (by simpa [isExact] using hv)]

end RawValue

section

variable (real : Float → Json)

theorem AttrDraft.carries {a : AttrDraft} (ha : a.value.isExact = true) :
    (a.toJson real).Carries decode? a := by
  have hvalue := RawValue.carries real ha
  exact Json.carries_record (fun _ => rfl) rfl rfl (by simp [hvalue.proper])
    (by simp [List.lookup_cons, hvalue.read_eq])

theorem ParamDraft.carries {p : ParamDraft} (hp : ∀ a ∈ p.attributes, a.value.isExact = true) :
    (p.toJson real).Carries decode? p := by
  have hattributes := Json.carries_ofList fun a ha => AttrDraft.carries real (hp a ha)
  exact Json.carries_record (fun _ => rfl) rfl rfl (by simp [hattributes.proper])
    (by simp [List.lookup_cons, hattributes.read_eq])

namespace DeclarationDraft

/-- The fields of a declaration are found around what it is a use of. -/
theorem ofMembers?_fields {kind : DeclarationKind} {name condition line doc params : Json} :
    Json.Record.ofMembers? fields
      ([("name", name), kind.toMember, ("condition", condition), ("line", line), ("doc", doc),
        ("params", params)].map fun (k, v) => (some k, v)) =
      some ⟨false, [("name", name), ("condition", condition), ("line", line), ("doc", doc),
        ("params", params)]⟩ := by
  cases kind <;> exact Json.ofMembers?_map rfl rfl

/-- A use of a component is never taken for a use of a block, and no use of a block for one of a
component. -/
theorem carries {d : DeclarationDraft} (depth : Nat)
    (hd : ∀ p ∈ d.params, ∀ a ∈ p.attributes, a.value.isExact = true) :
    (d.toJson real).Carries (decode? depth) d := by
  have hparams := Json.carries_ofList fun p hp => ParamDraft.carries real (hd p hp)
  constructor
  case proper =>
    refine Json.proper_record ?_
    cases hkind : d.kind <;> simp [DeclarationKind.toMember, hparams.proper]
  case read_eq =>
    unfold toJson Json.record decode?
    dsimp only
    rw [ofMembers?_fields]
    cases hkind : d.kind <;>
      simp [← hkind, DeclarationKind.toMember, extrasFit, fields, kind?, List.lookup_cons,
        hparams.read_eq]

end DeclarationDraft

theorem BlockDraft.carries {b : BlockDraft} (depth : Nat) (hb : b.Exact) :
    (b.toJson real).Carries (decode? depth) b := by
  have hparams := Json.carries_ofList fun p (_ : p ∈ b.params) => p.carries
  have hdeclarations := Json.carries_ofList fun d hd =>
    DeclarationDraft.carries real (depth + 2) (hb d hd)
  have houtputs := Json.carries_ofList fun o (_ : o ∈ b.outputs) => o.carries
  exact Json.carries_record (fun _ => rfl) rfl rfl
    (by simp [hparams.proper, hdeclarations.proper, houtputs.proper])
    (by simp [List.lookup_cons, hparams.read_eq, hdeclarations.read_eq, houtputs.read_eq])

theorem Bundle.carries {b : Bundle} (hb : b.Exact) : (b.toJson real).Carries decode? b := by
  have htypes := Json.carries_ofList fun t (_ : t ∈ b.types) =>
    TypeDraft.carries (show 2 + 1 < Json.nestingLimit by decide) t
  have hcomponents := Json.carries_ofList fun c (_ : c ∈ b.components) => c.carries
  have hblocks := Json.carries_ofList fun k hk => BlockDraft.carries real 2 (hb k hk)
  exact Json.carries_record (fun _ => rfl) rfl rfl
    (by simp [htypes.proper, hcomponents.proper, hblocks.proper])
    (by simp [List.lookup_cons, htypes.read_eq, hcomponents.read_eq, hblocks.read_eq])

end

/-! ## Texts -/

theorem BlockDraft.parse_of_spells {b : BlockDraft} (hb : b.Exact) {text : String}
    (h : Json.Spells (Json.tokens (b.toJson Json.ofFloat)) text.toList) :
    BlockDraft.parse text = .ok b := by
  unfold parse
  rw [Json.parse?_of_spells h]
  show ofJson (b.toJson Json.ofFloat) = _
  unfold ofJson
  rw [(carries Json.ofFloat 0 hb).read_eq]

theorem Bundle.parse_of_spells {b : Bundle} (hb : b.Exact) {text : String}
    (h : Json.Spells (Json.tokens (b.toJson Json.ofFloat)) text.toList) :
    Bundle.parse text = .ok b := by
  unfold parse
  rw [Json.parse?_of_spells h]
  show ofJson (b.toJson Json.ofFloat) = _
  unfold ofJson
  rw [(carries Json.ofFloat hb).read_eq]

/-- A bundle is read back from what is rendered of it, and from every other text of its document,
whatever blanks stand in the text and however its characters are escaped. So is a block. -/
theorem Bundle.round_trip :
    (∀ b : Bundle, b.Exact → Bundle.parse b.render = .ok b ∧
      ∀ text : String, Json.Spells (Json.tokens (b.toJson Json.ofFloat)) text.toList →
        Bundle.parse text = .ok b) ∧
    ∀ b : BlockDraft, b.Exact → BlockDraft.parse b.render = .ok b ∧
      ∀ text : String, Json.Spells (Json.tokens (b.toJson Json.ofFloat)) text.toList →
        BlockDraft.parse text = .ok b := by
  constructor
  · intro b hb
    have hrender := Json.spells_render (Bundle.carries Json.ofFloat hb).proper
    exact ⟨Bundle.parse_of_spells hb hrender, fun _ => Bundle.parse_of_spells hb⟩
  · intro b hb
    have hrender := Json.spells_render (BlockDraft.carries Json.ofFloat 0 hb).proper
    exact ⟨BlockDraft.parse_of_spells hb hrender, fun _ => BlockDraft.parse_of_spells hb⟩

/-- A block that uses the component and the block `scale`, with texts that look like other
values. -/
def BlockDraft.scaling : BlockDraft where
  name := "scaling"
  origin := some "C:\\drafts\\scaling.json"
  doc := some "says \"42\",\n\tnot 42"
  params := [⟨"feed", none, [⟨"amount", some "\u0001𝄞"⟩]⟩]
  declarations := [
    ⟨"first", .component "scale", some "!@feed.amount", some 7, none, [
      ⟨"in", [⟨"value", .text "42"⟩, ⟨"value", .immediate (.integer (-42))⟩,
        ⟨"limit", .immediate (.long 2147483648)⟩]⟩]⟩,
    ⟨"second", .block "scale", none, none, some "null", [
      ⟨"in", [⟨"exact", .text "true"⟩, ⟨"exact", .immediate (.boolean true)⟩]⟩]⟩]
  outputs := [⟨"result", "@first.out", none⟩]

/-- The types, the component and the block of a scaling. -/
def Bundle.scaling : Bundle where
  types := [.ofClass "interface" (some "Object") ["Sized"] true, .ofInterface "Sized" []]
  components := [⟨"scale", none,
    [⟨"in", 1, some 3, none, [⟨"value", "Integer", some "1", true, none⟩]⟩],
    ⟨"", "Integer", some "class"⟩⟩]
  blocks := [.scaling]

/-- The texts are read back also with an empty line at the end. -/
theorem Bundle.round_trip_scaling :
    Bundle.scaling.Exact ∧ Bundle.parse Bundle.scaling.render = .ok .scaling ∧
      Bundle.parse (Bundle.scaling.render ++ "\n") = .ok .scaling ∧
    BlockDraft.scaling.Exact ∧ BlockDraft.parse BlockDraft.scaling.render = .ok .scaling ∧
      BlockDraft.parse (BlockDraft.scaling.render ++ "\n") = .ok .scaling := by
  have hbundle : Bundle.scaling.Exact := by decide
  have hblock : BlockDraft.scaling.Exact := by decide
  have hgap : ∀ c ∈ "\n".toList, Json.isGap c = true := by simp [Json.isGap]
  obtain ⟨hread, hspelled⟩ := Bundle.round_trip.1 _ hbundle
  obtain ⟨hreadBlock, hspelledBlock⟩ := Bundle.round_trip.2 _ hblock
  refine ⟨hbundle, hread, hspelled _ ?_, hblock, hreadBlock, hspelledBlock _ ?_⟩
  · rw [String.toList_append]
    exact Json.spells_render_append (Bundle.carries Json.ofFloat hbundle).proper hgap
  · rw [String.toList_append]
    exact Json.spells_render_append (BlockDraft.carries Json.ofFloat 0 hblock).proper hgap

end Blockwork
