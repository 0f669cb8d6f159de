import MarketBenchmark.Foundation.Labels

/-!
# Names of outbox files

A batch file is named by its ordering key, a random identifier and its number
of events; a temporary file only by the identifier.  Whatever the identifier
is, the ordering key and the number of events are read back from the name.
-/

namespace MarketBenchmark.Outbox

open Foundation.Labels

abbrev Name : Type := List Char

def axiomMaxEventsPerBatch : Nat := 10000

def batchSuffix : Name := ".ndjson".toList
def tempSuffix : Name := ".tmp".toList

/-- `{order:020}-{id}-{events}.ndjson`. -/
def batchName (order : Nat) (id : List Char) (events : Nat) : Name :=
  padded 20 order ++ '-' :: (id ++ '-' :: Nat.toDigits 10 events) ++ batchSuffix

/-- `.{id}.tmp`. -/
def tempName (id : List Char) : Name := '.' :: id ++ tempSuffix

/-- The lock that a process holds. -/
def lockName : Name := ".producer.lock".toList

/-- `name.ends_with(".ndjson")`. -/
def IsBatchName (name : Name) : Prop := batchSuffix <:+ name

/-- `name.ends_with(".tmp")`. -/
def IsTempName (name : Name) : Prop := tempSuffix <:+ name

instance (name : Name) : Decidable (IsBatchName name) := inferInstanceAs (Decidable (_ <:+ _))
instance (name : Name) : Decidable (IsTempName name) := inferInstanceAs (Decidable (_ <:+ _))

def withoutPlus : List Char → List Char
  | '+' :: rest => rest
  | text => text

/-- `str::parse::<u64>`: decimal digits, after an optional plus sign. -/
def parseU64 (text : List Char) : Option Nat :=
  (parseDecimal (withoutPlus text)).filter fun value => value < 2 ^ 64

def eventCountFromName (name : Name) : Option Nat :=
  (((stripSuffix batchSuffix name).bind fun stem => rsplitOnce '-' stem).bind fun parts =>
    parseU64 parts.2).filter fun count => 0 < count ∧ count ≤ axiomMaxEventsPerBatch

def orderFromName (name : Name) : Option Nat :=
  (((splitOnce '-' name).map Prod.fst).filter fun order => order.length = 20).bind parseU64

theorem parseU64_of_digits {text : List Char} {value : Nat}
    (digits : ∀ symbol ∈ text, symbol.isDigit = true) (parsed : parseDecimal text = some value)
    (fits : value < 2 ^ 64) : parseU64 text = some value := by
  have unsigned : withoutPlus text = text := by
    unfold withoutPlus
    split
    · exact absurd (digits '+' List.mem_cons_self) (by decide)
    · rfl
  unfold parseU64
  rw [unsigned, parsed, Option.filter_some, if_pos (decide_eq_true fits)]

theorem orderFromName_batchName {order : Nat} (id : List Char) (events : Nat)
    (fits : order < 2 ^ 64) : orderFromName (batchName order id events) = some order := by
  have length : (padded 20 order).length = 20 :=
    length_padded (by decide) (Nat.lt_trans fits (by decide))
  unfold orderFromName batchName
  rw [List.append_assoc, List.cons_append, splitOnce_append (notMem_padded (by decide) 20 order),
    Option.map_some, Option.filter_some, if_pos (decide_eq_true length), Option.bind_some]
  exact parseU64_of_digits (fun symbol => isDigit_of_mem_padded) (parseDecimal_padded 20 order) fits

theorem eventCountFromName_batchName (order : Nat) (id : List Char) {events : Nat}
    (positive : 0 < events) (limited : events ≤ axiomMaxEventsPerBatch) :
    eventCountFromName (batchName order id events) = some events := by
  have fits : events < 2 ^ 64 := Nat.lt_of_le_of_lt limited (by decide)
  have digits : ∀ symbol ∈ Nat.toDigits 10 events, symbol.isDigit = true :=
    fun symbol member => Nat.isDigit_of_mem_toDigits (by decide) (by decide) member
  have stem : padded 20 order ++ '-' :: (id ++ '-' :: Nat.toDigits 10 events) =
      (padded 20 order ++ '-' :: id) ++ '-' :: Nat.toDigits 10 events := by
    rw [List.append_assoc, List.cons_append]
  unfold eventCountFromName batchName
  rw [stripSuffix_append, Option.bind_some, stem,
    rsplitOnce_append (notMem_toDigits (by decide) events), Option.bind_some,
    parseU64_of_digits digits (parseDecimal_toDigits events) fits, Option.filter_some,
    if_pos (decide_eq_true ⟨positive, limited⟩)]

theorem isBatchName_batchName (order : Nat) (id : List Char) (events : Nat) :
    IsBatchName (batchName order id events) := List.suffix_append _ _

theorem isTempName_tempName (id : List Char) : IsTempName (tempName id) := List.suffix_append _ _

/-- A temporary file is no batch. -/
theorem not_isBatchName_of_isTempName {name : Name} (temp : IsTempName name) :
    ¬IsBatchName name := by
  intro batch
  have shorter : tempSuffix <:+ batchSuffix :=
    List.suffix_of_suffix_length_le temp batch (by decide)
  exact absurd shorter (by decide)

theorem not_isBatchName_lockName : ¬IsBatchName lockName := by decide

end MarketBenchmark.Outbox
