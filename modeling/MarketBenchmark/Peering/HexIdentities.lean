import MarketBenchmark.Foundation.Hexadecimal
import MarketBenchmark.Peering.Assembly

/-!
# 32-byte values in hexadecimal

The node prints a value without its leading zeros, the reference feed pads it
again, and `parse_hex32` accepts it with or without a marker and in any case.
All of these texts name the same value, and no other text names one.
-/

namespace MarketBenchmark

open Foundation

/-! ## What the reference feed prints -/

/-- `hex32` of a text: the digits behind `0x`, justified to the right with zeros. -/
def justifyHex32 (value : String) : String :=
  let digits := if "0x".toList <+: value.toList then value.toList.drop 2 else value.toList
  String.ofList ("0x".toList ++ digits.leftpad 64 '0')

/-- `hex32` of `peering-reference-feed.py`. -/
def hex32 (value : Option String) : Option String := value.map justifyHex32

@[simp]
theorem hex32_none : hex32 none = none := rfl

@[simp]
theorem hex32_some (value : String) : hex32 (some value) = some (justifyHex32 value) := rfl

/-! ## The texts of a value -/

/-- The text is the value in hexadecimal, with or without `0x`, in any case, and with some of its
leading zeros removed. -/
def Writes (value : Hash32) (text : String) : Prop :=
  ∃ (marker digits : List Char) (removed : Nat),
    text.toList = marker ++ digits ∧ (marker = [] ∨ marker = "0x".toList) ∧ digits ≠ [] ∧
      List.replicate removed '0' ++ digits.map Char.toLower = Hexadecimal.digits value.toList

/-- The digits of a text, padded to 64 and in lower case. -/
def foldedHex32 (text : String) : List Char :=
  ((stripHexPrefix text.toList).leftpad 64 '0').map Char.toLower

/-! ## Digits -/

theorem hexDigit_iff_of_ascii : ∀ code < 128, ∀ digit < 16,
    hexDigit (Char.ofNat code) = some digit ↔
      (Char.ofNat code).toLower = Nat.digitChar digit := by
  decide +kernel

theorem toNat_digitChar_lt : ∀ digit < 16, (Nat.digitChar digit).toNat < 128 := by decide

theorem hexDigit_lt {symbol : Char} {digit : Nat} (read : hexDigit symbol = some digit) :
    symbol.toNat < 128 ∧ digit < 16 := by
  unfold hexDigit at read
  split at read
  · rename_i decimal
    have below : symbol.toNat ≤ '9'.toNat := decimal.2
    cases read
    exact ⟨Nat.lt_of_le_of_lt below (by decide),
      Nat.lt_of_le_of_lt (Nat.sub_le_sub_right below _) (by decide)⟩
  · split at read
    · rename_i lower
      have below : symbol.toNat ≤ 'f'.toNat := lower.2
      cases read
      exact ⟨Nat.lt_of_le_of_lt below (by decide),
        Nat.lt_of_le_of_lt (Nat.add_le_add_right (Nat.sub_le_sub_right below _) _) (by decide)⟩
    · split at read
      · rename_i upper
        have below : symbol.toNat ≤ 'F'.toNat := upper.2
        cases read
        exact ⟨Nat.lt_of_le_of_lt below (by decide),
          Nat.lt_of_le_of_lt (Nat.add_le_add_right (Nat.sub_le_sub_right below _) _) (by decide)⟩
      · cases read

theorem toLower_of_not_ascii {symbol : Char} (wide : 128 ≤ symbol.toNat) :
    symbol.toLower = symbol := by
  unfold Char.toLower
  rw [dif_neg]
  intro upper
  have below : symbol.toNat ≤ 'Z'.toNat := upper.2
  exact absurd (Nat.le_trans wide below) (by decide)

/-- The lower case of a digit tells its value. -/
theorem hexDigit_eq_some_iff {symbol : Char} {digit : Nat} :
    hexDigit symbol = some digit ↔ digit < 16 ∧ symbol.toLower = Nat.digitChar digit := by
  have ascii : symbol.toNat < 128 → digit < 16 →
      (hexDigit symbol = some digit ↔ symbol.toLower = Nat.digitChar digit) := by
    intro narrow small
    have checked := hexDigit_iff_of_ascii symbol.toNat narrow digit small
    rwa [Char.ofNat_toNat] at checked
  constructor
  · intro read
    obtain ⟨narrow, small⟩ := hexDigit_lt read
    exact ⟨small, (ascii narrow small).mp read⟩
  · rintro ⟨small, same⟩
    rcases Nat.lt_or_ge symbol.toNat 128 with narrow | wide
    · exact (ascii narrow small).mpr same
    · rw [toLower_of_not_ascii wide] at same
      rw [same] at wide
      exact absurd (toNat_digitChar_lt digit small) (Nat.not_lt.mpr wide)

theorem mapM_hexDigit_iff {symbols : List Char} {digits : List Nat} :
    symbols.mapM hexDigit = some digits ↔
      (∀ digit ∈ digits, digit < 16) ∧ symbols.map Char.toLower = digits.map Nat.digitChar := by
  induction symbols generalizing digits with
  | nil =>
      rw [List.mapM_nil, Option.pure_def, Option.some.injEq, List.map_nil]
      constructor
      · rintro rfl
        exact ⟨nofun, rfl⟩
      · rintro ⟨_, same⟩
        exact (List.map_eq_nil_iff.mp same.symm).symm
  | cons symbol rest ih =>
      rw [List.mapM_cons, Option.bind_eq_bind, Option.bind_eq_some_iff]
      constructor
      · rintro ⟨first, readFirst, read⟩
        obtain ⟨others, readOthers, ⟨⟩⟩ := Option.bind_eq_some_iff.mp read
        obtain ⟨small, same⟩ := hexDigit_eq_some_iff.mp readFirst
        obtain ⟨othersSmall, othersSame⟩ := ih.mp readOthers
        refine ⟨List.forall_mem_cons.mpr ⟨small, othersSmall⟩, ?_⟩
        rw [List.map_cons, List.map_cons, same, othersSame]
      · rintro ⟨small, same⟩
        cases digits with
        | nil => cases same
        | cons first others =>
            obtain ⟨firstSmall, othersSmall⟩ := List.forall_mem_cons.mp small
            obtain ⟨here, later⟩ := List.cons.inj same
            refine ⟨first, hexDigit_eq_some_iff.mpr ⟨firstSmall, here⟩, ?_⟩
            exact Option.bind_eq_some_iff.mpr ⟨others, ih.mpr ⟨othersSmall, later⟩, rfl⟩

/-! ## Parsing -/

/-- The marker is the only thing that is stripped. -/
theorem stripHexPrefix_cases (text : List Char) :
    ∃ marker, text = marker ++ stripHexPrefix text ∧ (marker = [] ∨ marker = "0x".toList) := by
  unfold stripHexPrefix
  split
  · exact ⟨"0x".toList, rfl, Or.inr rfl⟩
  · exact ⟨[], rfl, Or.inl rfl⟩

/-- Digits do not begin with the marker. -/
theorem stripHexPrefix_digits {symbols : List Char} {digits : List Nat}
    (read : symbols.mapM hexDigit = some digits) : stripHexPrefix symbols = symbols := by
  unfold stripHexPrefix
  split
  · next rest =>
      cases read
  · rfl

/-- The half bytes of a parsed value are the digits of the text, behind zeros. -/
theorem nibbles_of_parse {text : String} {value : Hash32} (parsed : parseHex32 text = some value) :
    ∃ digits, (stripHexPrefix text.toList).mapM hexDigit = some digits ∧ digits ≠ [] ∧
      Hexadecimal.nibbles value.toList = List.replicate (64 - digits.length) 0 ++ digits := by
  unfold parseHex32 at parsed
  cases read : (stripHexPrefix text.toList).mapM hexDigit with
  | none =>
      rw [read] at parsed
      cases parsed
  | some digits =>
      rw [read] at parsed
      dsimp only at parsed
      split at parsed
      · cases parsed
      next fits =>
        have length : (List.replicate (64 - digits.length) 0 ++ digits).length = 2 * 32 := by
          rw [List.length_append, List.length_replicate]
          omega
        have small : ∀ digit ∈ List.replicate (64 - digits.length) 0 ++ digits, digit < 16 := by
          intro digit member
          rcases List.mem_append.mp member with zero | own
          · rw [List.eq_of_mem_replicate zero]
            decide
          · exact (mapM_hexDigit_iff.mp read).1 digit own
        refine ⟨digits, rfl, fun empty => fits (Or.inl (congrArg List.length empty)), ?_⟩
        rw [← Option.some.inj parsed, Vector.toList_ofFn]
        exact Hexadecimal.nibbles_ofFn 32 length small

/-- One to 64 digits are parsed. -/
theorem exists_parse {text : String} {digits : List Nat}
    (read : (stripHexPrefix text.toList).mapM hexDigit = some digits) (nonempty : digits ≠ [])
    (short : digits.length ≤ 64) : ∃ value, parseHex32 text = some value := by
  have fits : ¬(digits.length = 0 ∨ 64 < digits.length) := by
    rw [List.length_eq_zero_iff]
    rintro (empty | long)
    · exact nonempty empty
    · exact absurd short (Nat.not_le.mpr long)
  unfold parseHex32
  rw [read]
  dsimp only
  rw [if_neg fits]
  exact ⟨_, rfl⟩

theorem length_of_mapM {symbols : List Char} {digits : List Nat}
    (read : symbols.mapM hexDigit = some digits) : symbols.length = digits.length := by
  have lengths := congrArg List.length (mapM_hexDigit_iff.mp read).2
  rwa [List.length_map, List.length_map] at lengths

/-- The digits of a parsed value are the padded ones of the text, in lower case. -/
theorem folded_of_parse {text : String} {value : Hash32} (parsed : parseHex32 text = some value) :
    stripHexPrefix text.toList ≠ [] ∧ foldedHex32 text = Hexadecimal.digits value.toList := by
  obtain ⟨digits, read, nonempty, nibbles⟩ := nibbles_of_parse parsed
  have sameLength := length_of_mapM read
  constructor
  · intro empty
    rw [empty] at sameLength
    exact nonempty (List.length_eq_zero_iff.mp sameLength.symm)
  · rw [Hexadecimal.digits, nibbles, List.map_append, List.map_replicate,
      ← (mapM_hexDigit_iff.mp read).2, foldedHex32, List.leftpad, List.map_append,
      List.map_replicate, sameLength]
    rfl

/-- Exactly the texts with the digits of a value are parsed as it. -/
theorem parseHex32_eq_some_iff {text : String} {value : Hash32} :
    parseHex32 text = some value ↔
      stripHexPrefix text.toList ≠ [] ∧ foldedHex32 text = Hexadecimal.digits value.toList := by
  refine ⟨folded_of_parse, ?_⟩
  rintro ⟨nonempty, folded⟩
  have length : (foldedHex32 text).length = 64 := by
    rw [folded, Hexadecimal.length_digits, Vector.length_toList]
  have short : (stripHexPrefix text.toList).length ≤ 64 := by
    rw [foldedHex32, List.length_map, List.length_leftpad] at length
    omega
  -- the digits behind the padding
  have read : (stripHexPrefix text.toList).mapM hexDigit = some
      ((Hexadecimal.nibbles value.toList).drop (64 - (stripHexPrefix text.toList).length)) := by
    refine mapM_hexDigit_iff.mpr ⟨fun digit member =>
      Hexadecimal.nibbles_lt digit (List.mem_of_mem_drop member), ?_⟩
    rw [List.map_drop, ← Hexadecimal.digits, ← folded, foldedHex32, ← List.map_drop, List.leftpad,
      List.drop_left' List.length_replicate]
  have sameLength := length_of_mapM read
  obtain ⟨other, parsed⟩ := exists_parse read
    (fun empty => nonempty (List.length_eq_zero_iff.mp (sameLength.trans (congrArg _ empty))))
    (sameLength ▸ short)
  have sameDigits := (folded_of_parse parsed).2.symm.trans folded
  rw [parsed, Vector.toList_inj.mp (Hexadecimal.digits_injective sameDigits)]

/-! ## Every text of a value -/

theorem writes_iff {text : String} {value : Hash32} :
    Writes value text ↔
      stripHexPrefix text.toList ≠ [] ∧ foldedHex32 text = Hexadecimal.digits value.toList := by
  constructor
  · rintro ⟨marker, digits, removed, split, isMarker, nonempty, same⟩
    have read : digits.mapM hexDigit =
        some ((Hexadecimal.nibbles value.toList).drop removed) := by
      refine mapM_hexDigit_iff.mpr ⟨fun digit member =>
        Hexadecimal.nibbles_lt digit (List.mem_of_mem_drop member), ?_⟩
      rw [List.map_drop, ← Hexadecimal.digits, ← same, List.drop_left' List.length_replicate]
    have stripped : stripHexPrefix text.toList = digits := by
      rw [split]
      rcases isMarker with rfl | rfl
      · exact stripHexPrefix_digits read
      · rfl
    have length : removed + digits.length = 64 := by
      have lengths := congrArg List.length same
      rwa [List.length_append, List.length_replicate, List.length_map, Hexadecimal.length_digits,
        Vector.length_toList] at lengths
    have removedZeros : 64 - digits.length = removed := by omega
    refine ⟨stripped ▸ nonempty, ?_⟩
    rw [← same, foldedHex32, stripped, List.leftpad, removedZeros, List.map_append,
      List.map_replicate]
    rfl
  · rintro ⟨nonempty, folded⟩
    obtain ⟨marker, split, isMarker⟩ := stripHexPrefix_cases text.toList
    refine ⟨marker, stripHexPrefix text.toList, 64 - (stripHexPrefix text.toList).length, split,
      isMarker, nonempty, ?_⟩
    rw [← folded, foldedHex32, List.leftpad, List.map_append, List.map_replicate]
    rfl

/-- A text is parsed as exactly the value that it writes. -/
theorem parseHex32_iff_writes {text : String} {value : Hash32} :
    parseHex32 text = some value ↔ Writes value text :=
  parseHex32_eq_some_iff.trans writes_iff.symm

/-! ## The reference feed -/

theorem toList_justifyHex32 (value : String) :
    (justifyHex32 value).toList =
      '0' :: 'x' :: (stripHexPrefix value.toList).leftpad 64 '0' := by
  have same : (if "0x".toList <+: value.toList then value.toList.drop 2 else value.toList) =
      stripHexPrefix value.toList := by
    unfold stripHexPrefix
    split
    next marked =>
      obtain ⟨rest, split⟩ := marked
      rw [← split]
      rfl
    next unmarked =>
      split
      next rest split => exact absurd ⟨rest, split.symm⟩ unmarked
      · rfl
  unfold justifyHex32
  dsimp only
  rw [same, String.toList_ofList]
  rfl

/-- The feed prints a text of the same value. -/
theorem parse_justifyHex32 {text : String} {value : Hash32}
    (parsed : parseHex32 text = some value) : parseHex32 (justifyHex32 text) = some value := by
  obtain ⟨nonempty, folded⟩ := parseHex32_eq_some_iff.mp parsed
  have stripped : stripHexPrefix (justifyHex32 text).toList =
      (stripHexPrefix text.toList).leftpad 64 '0' := by
    rw [toList_justifyHex32]
    rfl
  have long : 64 - ((stripHexPrefix text.toList).leftpad 64 '0').length = 0 := by
    rw [List.length_leftpad]
    omega
  refine parseHex32_eq_some_iff.mpr ⟨?_, ?_⟩
  · rw [stripped, List.leftpad]
    exact List.append_ne_nil_of_right_ne_nil _ nonempty
  · rw [foldedHex32, stripped, List.leftpad, long]
    exact folded

/-- A bundle as the feed prints it: its hash, its first signature value and its size. -/
def feedBundle (bundle : String × Option String × Nat) : String × Option String × Nat :=
  (justifyHex32 bundle.1, hex32 bundle.2.1, bundle.2.2)

/-- A line of the feed has the signatures that the node printed. -/
theorem bundleSigs_feedBundle {line : ReferenceLine}
    (written : ∀ bundle ∈ line.b, ∀ text ∈ bundle.2.1, ∃ value, Writes value text) :
    Assembly.bundleSigs { line with b := line.b.map feedBundle } = Assembly.bundleSigs line := by
  have signature : ∀ bundle ∈ line.b,
      (feedBundle bundle).2.1.bind parseHex32 = bundle.2.1.bind parseHex32 := by
    intro bundle member
    unfold feedBundle
    cases printed : bundle.2.1 with
    | none => rfl
    | some text =>
        obtain ⟨value, writes⟩ := written bundle member text printed
        have parsed := parseHex32_iff_writes.mpr writes
        rw [hex32_some, Option.bind_some, Option.bind_some, parsed, parse_justifyHex32 parsed]
  unfold Assembly.bundleSigs
  dsimp only
  generalize line.b = bundles at signature
  induction bundles with
  | nil => rfl
  | cons bundle rest ih =>
      obtain ⟨here, later⟩ := List.forall_mem_cons.mp signature
      rw [List.map_cons, List.mapM_cons, List.mapM_cons, here, ih later]

/-! ## Values and their texts -/

/-- Accepted texts name the same value exactly when they are equal but for padding and case. -/
theorem parse_eq_iff {first second : String} (firstAccepted : (parseHex32 first).isSome = true)
    (secondAccepted : (parseHex32 second).isSome = true) :
    parseHex32 first = parseHex32 second ↔ foldedHex32 first = foldedHex32 second := by
  obtain ⟨value, parsed⟩ := Option.isSome_iff_exists.mp firstAccepted
  obtain ⟨other, parsedOther⟩ := Option.isSome_iff_exists.mp secondAccepted
  rw [parsed, parsedOther, (folded_of_parse parsed).2, (folded_of_parse parsedOther).2,
    Option.some.injEq, Hexadecimal.digits_injective.eq_iff, Vector.toList_inj]

/--
Every way of writing a value is parsed as the value, every other text is
rejected, accepted texts name the same value exactly when they are equal after
padding and case folding, and what the reference feed prints of a text names the
value of the text.
-/
theorem hex_identities_survive_printing :
    (∀ (value : Hash32) (text : String), Writes value text → parseHex32 text = some value) ∧
    (∀ first second : String, (parseHex32 first).isSome = true →
      (parseHex32 second).isSome = true →
      (parseHex32 first = parseHex32 second ↔ foldedHex32 first = foldedHex32 second)) ∧
    (∀ text : String, (∀ value, ¬Writes value text) → parseHex32 text = none) ∧
    ∀ (value : Hash32) (text : String), Writes value text →
      (hex32 (some text)).bind parseHex32 = parseHex32 text := by
  refine ⟨fun value text => parseHex32_iff_writes.mpr, fun first second => parse_eq_iff, ?_, ?_⟩
  · intro text unwritten
    cases parsed : parseHex32 text with
    | none => rfl
    | some value => exact absurd (parseHex32_iff_writes.mp parsed) (unwritten value)
  · intro value text writes
    have parsed := parseHex32_iff_writes.mpr writes
    rw [parsed, hex32_some, Option.bind_some]
    exact parse_justifyHex32 parsed

/-- The value is below 256, and 62 of its digits are not printed. -/
theorem hex_identities_survive_printing_short :
    Writes ⟨⟨List.replicate 31 0 ++ [0xab]⟩, rfl⟩ "0xAb" ∧
      parseHex32 "0xAb" = some ⟨⟨List.replicate 31 0 ++ [0xab]⟩, rfl⟩ ∧
      (hex32 (some "0xAb")).bind parseHex32 = parseHex32 "0xAb" := by
  have writes : Writes ⟨⟨List.replicate 31 0 ++ [0xab]⟩, rfl⟩ "0xAb" :=
    ⟨"0x".toList, "Ab".toList, 62, rfl, Or.inr rfl, List.cons_ne_nil _ _, by decide⟩
  obtain ⟨parses, _, _, fed⟩ := hex_identities_survive_printing
  exact ⟨writes, parses _ _ writes, fed _ _ writes⟩

end MarketBenchmark
