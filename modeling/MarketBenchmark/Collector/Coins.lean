import MarketBenchmark.Collector.Identity
import MarketBenchmark.Benchmark.Config
import MarketBenchmark.Foundation.Labels

/-!
# The coins of a process

Coin names are separated by commas, trimmed and put in upper case; the first of
equal names is kept.  An accepted list is canonical: written out again, it is
accepted as itself.
-/

namespace MarketBenchmark

open Foundation.Labels
open Foundation.Results

def isCoinSymbol (symbol : Char) : Bool :=
  symbol.isAlphanum || symbol == '-' || symbol == '_'

def coinOf (name : Text) : String := String.ofList (name.map Char.toUpper)

/-- The loop of `parse_coins` over the parts of its text. -/
def collectCoins : List Text → List String → Except String (List String)
  | [], coins => .ok coins
  | part :: rest, coins =>
      let name := trim part
      if name = [] then collectCoins rest coins
      else if 32 < name.length ∨ name.all isCoinSymbol = false then
        .error "coin names must be 1-32 ASCII letters, numbers, '-' or '_'"
      else collectCoins rest (if coinOf name ∈ coins then coins else coins ++ [coinOf name])

/-- `parse_coins`; a name with other characters is refused whatever its length. -/
def parseCoins (raw : Text) : Except String (List String) :=
  (collectCoins (raw.splitOn ',') []).bind fun coins =>
    if coins = [] then .error "--coins must contain at least one coin"
    else if maxCoinsPerProcess < coins.length then
      .error ("one benchmark process supports at most " ++ toString maxCoinsPerProcess ++ " coins")
    else .ok coins

def validateDatasetCoins (dataset : Dataset) (coins : List String) : Except String Unit :=
  if dataset = .mempool ∧ coins ≠ ["BTC"] then
    .error "the mempool-bundle-ready-v1 contract requires exactly --coins BTC"
  else if dataset = .peering ∧ coins ≠ ["BLOCKS"] then
    .error "the peering-block-ready-v1 contract requires exactly --coins BLOCKS"
  else .ok ()

/-! ## Symbols -/

theorem toNat_lt_of_isCoinSymbol {symbol : Char} (valid : isCoinSymbol symbol = true) :
    symbol.toNat < 128 := by
  simp only [isCoinSymbol, Char.isAlphanum, Char.isAlpha, Char.isUpper, Char.isLower,
    Char.isDigit, Bool.or_eq_true, Bool.and_eq_true, decide_eq_true_eq, beq_iff_eq] at valid
  rcases valid with (((upper | lower) | digit) | dash) | underscore
  · exact Nat.lt_of_le_of_lt upper.2 (by decide)
  · exact Nat.lt_of_le_of_lt lower.2 (by decide)
  · exact Nat.lt_of_le_of_lt digit.2 (by decide)
  · exact dash ▸ by decide
  · exact underscore ▸ by decide

theorem coinSymbol_of_code : ∀ code < 128, isCoinSymbol (Char.ofNat code) = true →
    isCoinSymbol (Char.ofNat code).toUpper = true ∧
      (Char.ofNat code).toUpper.toUpper = (Char.ofNat code).toUpper ∧
      isWhitespace (Char.ofNat code) = false ∧ Char.ofNat code ≠ ',' := by
  decide +kernel

/-- The symbols of coins are kept by the upper case, and no separator is one of them. -/
theorem coinSymbol {symbol : Char} (valid : isCoinSymbol symbol = true) :
    isCoinSymbol symbol.toUpper = true ∧ symbol.toUpper.toUpper = symbol.toUpper ∧
      isWhitespace symbol = false ∧ symbol ≠ ',' := by
  have checked := coinSymbol_of_code symbol.toNat (toNat_lt_of_isCoinSymbol valid)
  rw [Char.ofNat_toNat] at checked
  exact checked valid

theorem trim_eq_self {text : Text} (valid : text.all isCoinSymbol = true) : trim text = text :=
  trimMatches_eq_self fun symbol member =>
    (coinSymbol (List.all_eq_true.mp valid symbol member)).2.2.1

/-! ## Canonical lists -/

/-- A coin as the rows name it. -/
structure IsCoin (coin : String) : Prop where
  named : coin ≠ ""
  short : coin.toList.length ≤ 32
  symbols : coin.toList.all isCoinSymbol = true
  upper : coin.toList.map Char.toUpper = coin.toList

theorem isCoin_coinOf {name : Text} (named : name ≠ []) (short : name.length ≤ 32)
    (symbols : name.all isCoinSymbol = true) : IsCoin (coinOf name) := by
  have each : ∀ symbol ∈ name, isCoinSymbol symbol = true := List.all_eq_true.mp symbols
  unfold coinOf
  refine ⟨?_, ?_, ?_, ?_⟩
  · intro empty
    rw [← String.toList_eq_nil_iff, String.toList_ofList, List.map_eq_nil_iff] at empty
    exact named empty
  · rwa [String.toList_ofList, List.length_map]
  · rw [String.toList_ofList, List.all_map]
    exact List.all_eq_true.mpr fun symbol member => (coinSymbol (each symbol member)).1
  · rw [String.toList_ofList, List.map_map]
    exact List.map_congr_left fun symbol member => (coinSymbol (each symbol member)).2.1

theorem IsCoin.coinOf_toList {coin : String} (valid : IsCoin coin) : coinOf coin.toList = coin := by
  unfold coinOf
  rw [valid.upper, String.ofList_toList]

structure CanonicalCoins (coins : List String) : Prop where
  nonempty : coins ≠ []
  few : coins.length ≤ maxCoinsPerProcess
  nodup : coins.Nodup
  valid : ∀ coin ∈ coins, IsCoin coin

/-- A name that the argument may hold. -/
def IsCoinName (name : Text) : Prop := name.length ≤ 32 ∧ name.all isCoinSymbol = true

/-- The names that the parts of a text hold, without the empty ones. -/
def coinNames (parts : List Text) : List Text := (parts.map trim).filter (· ≠ [])

theorem ne_nil_of_mem_coinNames {parts : List Text} {name : Text}
    (member : name ∈ coinNames parts) : name ≠ [] :=
  of_decide_eq_true (List.mem_filter.mp member).2

/-! ## First appearances -/

/-- A coin is put behind the first appearances of those before it unless it is one of them. -/
theorem eraseDups_concat (coins : List String) (coin : String) :
    (coins ++ [coin]).eraseDups =
      if coin ∈ coins.eraseDups then coins.eraseDups else coins.eraseDups ++ [coin] := by
  rw [List.eraseDups_append]
  by_cases known : coin ∈ coins
  · rw [if_pos (List.mem_eraseDups.mpr known)]
    simp [List.removeAll, known]
  · rw [if_neg fun first => known (List.mem_eraseDups.mp first)]
    simp [List.removeAll, known, List.eraseDups_cons]

theorem nodup_eraseDups (coins : List String) : coins.eraseDups.Nodup := by
  induction coins using List.reverseRecOn with
  | nil => exact List.nodup_nil
  | append_singleton earlier coin ih =>
      rw [eraseDups_concat]
      split
      · exact ih
      · next fresh => exact List.nodup_append.mpr ⟨ih, List.nodup_singleton coin,
          fun old member new isNew same => fresh (by
            rw [← List.mem_singleton.mp isNew, ← same]
            exact member)⟩

theorem eraseDups_eq_self {coins : List String} (nodup : coins.Nodup) :
    coins.eraseDups = coins := by
  induction coins using List.reverseRecOn with
  | nil => rfl
  | append_singleton earlier coin ih =>
      obtain ⟨distinct, _, apart⟩ := List.nodup_append.mp nodup
      rw [eraseDups_concat, ih distinct, if_neg fun known =>
        apart coin known coin (List.mem_singleton_self coin) rfl]

/-! ## Parsing -/

/-- The loop accepts parts whose names are fit, and appends the first appearances of their coins
to those of earlier ones. -/
theorem collectCoins_eq_ok_iff {parts : List Text} {earlier result : List String} :
    collectCoins parts earlier.eraseDups = .ok result ↔
      (∀ name ∈ coinNames parts, IsCoinName name) ∧
        result = (earlier ++ (coinNames parts).map coinOf).eraseDups := by
  induction parts generalizing earlier with
  | nil =>
      rw [coinNames, List.map_nil, List.filter_nil, List.map_nil, List.append_nil]
      exact ⟨fun accepted => ⟨nofun, (Except.ok.inj accepted).symm⟩, fun ⟨_, same⟩ =>
        congrArg Except.ok same.symm⟩
  | cons part rest ih =>
      dsimp only [collectCoins]
      by_cases empty : trim part = []
      · have same : coinNames (part :: rest) = coinNames rest := by
          simp [coinNames, empty]
        rw [if_pos empty, same]
        exact ih
      · have same : coinNames (part :: rest) = trim part :: coinNames rest := by
          simp [coinNames, empty]
        rw [if_neg empty, same, List.forall_mem_cons, List.map_cons,
          List.append_cons earlier (coinOf (trim part))]
        by_cases invalid : 32 < (trim part).length ∨ (trim part).all isCoinSymbol = false
        · rw [if_pos invalid]
          refine iff_of_false nofun fun ⟨⟨⟨short, symbols⟩, _⟩, _⟩ => ?_
          rcases invalid with long | other
          · exact Nat.not_lt.mpr short long
          · exact Bool.false_ne_true (other.symm.trans symbols)
        · rw [if_neg invalid, ← eraseDups_concat, ih]
          rw [not_or, not_lt, Bool.not_eq_false] at invalid
          exact and_congr_left fun _ => (and_iff_right invalid).symm

/-- An argument is accepted if its names are fit, there is one, and not too many of them differ;
the coins are then the upper-case names in the order in which they first appear. -/
theorem parseCoins_eq_ok_iff {raw : Text} {coins : List String} :
    parseCoins raw = .ok coins ↔
      (∀ name ∈ coinNames (raw.splitOn ','), IsCoinName name) ∧
        coins = ((coinNames (raw.splitOn ',')).map coinOf).eraseDups ∧
        coins ≠ [] ∧ coins.length ≤ maxCoinsPerProcess := by
  have loop : ∀ result, collectCoins (raw.splitOn ',') ([] : List String).eraseDups =
      .ok result ↔ _ := fun result => collectCoins_eq_ok_iff
  unfold parseCoins
  rw [bind_eq_ok_iff]
  constructor
  · rintro ⟨result, collected, accepted⟩
    split_ifs at accepted with empty many
    obtain rfl := Except.ok.inj accepted
    obtain ⟨fit, same⟩ := (loop result).mp collected
    exact ⟨fit, same, empty, not_lt.mp many⟩
  · rintro ⟨fit, same, nonempty, few⟩
    refine ⟨coins, (loop coins).mpr ⟨fit, same⟩, ?_⟩
    rw [if_neg nonempty, if_neg (not_lt.mpr few)]

theorem parseCoins_canonical {raw : Text} {coins : List String}
    (parsed : parseCoins raw = .ok coins) : CanonicalCoins coins := by
  obtain ⟨fit, same, nonempty, few⟩ := parseCoins_eq_ok_iff.mp parsed
  refine ⟨nonempty, few, same ▸ nodup_eraseDups _, fun coin member => ?_⟩
  rw [same, List.mem_eraseDups] at member
  obtain ⟨name, named, rfl⟩ := List.mem_map.mp member
  exact isCoin_coinOf (ne_nil_of_mem_coinNames named) (fit name named).1 (fit name named).2

def renderCoins (coins : List String) : Text := [','].intercalate (coins.map String.toList)

/-- A canonical list written out holds the names of its coins. -/
theorem CanonicalCoins.coinNames_render {coins : List String} (canonical : CanonicalCoins coins) :
    coinNames ((renderCoins coins).splitOn ',') = coins.map String.toList := by
  have noComma : ∀ name ∈ coins.map String.toList, ',' ∉ name := by
    intro name member comma
    obtain ⟨coin, known, rfl⟩ := List.mem_map.mp member
    exact (coinSymbol (List.all_eq_true.mp (canonical.valid coin known).symbols _ comma)).2.2.2 rfl
  have trimmed : (coins.map String.toList).map trim = coins.map String.toList := by
    rw [List.map_map]
    exact List.map_congr_left fun coin member => trim_eq_self (canonical.valid coin member).symbols
  rw [renderCoins, List.splitOn_intercalate ',' noComma (by
    rw [ne_eq, List.map_eq_nil_iff]; exact canonical.nonempty), coinNames, trimmed]
  refine List.filter_eq_self.mpr fun name member => decide_eq_true ?_
  obtain ⟨coin, known, rfl⟩ := List.mem_map.mp member
  exact fun empty => (canonical.valid coin known).named (String.toList_eq_nil_iff.mp empty)

theorem CanonicalCoins.parse_render {coins : List String} (canonical : CanonicalCoins coins) :
    parseCoins (renderCoins coins) = .ok coins := by
  refine parseCoins_eq_ok_iff.mpr ⟨?_, ?_, canonical.nonempty, canonical.few⟩
  · rw [canonical.coinNames_render]
    intro name member
    obtain ⟨coin, known, rfl⟩ := List.mem_map.mp member
    exact ⟨(canonical.valid coin known).short, (canonical.valid coin known).symbols⟩
  · have named : (coins.map String.toList).map coinOf = coins := by
      rw [List.map_map]
      refine (List.map_congr_left fun coin member => ?_).trans (List.map_id coins)
      exact (canonical.valid coin member).coinOf_toList
    rw [canonical.coinNames_render, named, eraseDups_eq_self canonical.nodup]

/--
The argument of the coins has one canonical reading.  It is accepted exactly if
its trimmed names, without the empty ones, are fit, at least one and at most the
maximum of different ones, and its coins are these names in upper case in the
order in which they first appear.  The lists that can be read are the canonical
ones, which are read back when they are written out.
-/
theorem parsed_coins_canonical (coins : List String) :
    (∀ raw, parseCoins raw = .ok coins ↔
      (∀ name ∈ coinNames (raw.splitOn ','), IsCoinName name) ∧
        coins = ((coinNames (raw.splitOn ',')).map coinOf).eraseDups ∧
        coins ≠ [] ∧ coins.length ≤ maxCoinsPerProcess) ∧
    ((∃ raw, parseCoins raw = .ok coins) ↔ CanonicalCoins coins) ∧
    (parseCoins (renderCoins coins) = .ok coins ↔ CanonicalCoins coins) :=
  ⟨fun _ => parseCoins_eq_ok_iff,
    ⟨fun ⟨_, parsed⟩ => parseCoins_canonical parsed, fun canonical => ⟨_, canonical.parse_render⟩⟩,
    parseCoins_canonical, CanonicalCoins.parse_render⟩

/-- A list with blanks, an empty part, a repeated name and small letters. -/
theorem parsed_coins_canonical_sample :
    CanonicalCoins ["BTC", "PURR-2"] ∧ parseCoins "BTC,PURR-2".toList = .ok ["BTC", "PURR-2"] := by
  have parsed : parseCoins " btc,, purr-2 ,BTC".toList = .ok ["BTC", "PURR-2"] := by
    decide +kernel
  obtain ⟨_, accepted, written⟩ := parsed_coins_canonical ["BTC", "PURR-2"]
  have canonical := accepted.mp ⟨_, parsed⟩
  exact ⟨canonical, written.mpr canonical⟩

end MarketBenchmark
