import MarketBenchmark.Collector.Identity
import MarketBenchmark.Foundation.Labels

/-!
# Addresses and endpoints

The texts of IP addresses as the standard library reads them: each reader takes
what it can from the front of a text and leaves the rest.  Over them the checks
of the endpoints that an argument may name: a peering wire is `host:port`, a
tapped one an IPv4 socket address, and the gRPC service of the box itself a
plaintext origin on a loopback host.  The parts of a URL are a parameter.
-/

namespace MarketBenchmark

open Foundation.Labels
open Foundation.Results

/-! ## Readers -/

/-- `char::to_digit`, up to radix 36. -/
def toDigit (radix : Nat) (symbol : Char) : Option Nat :=
  let digit :=
    if symbol.isDigit then symbol.toNat - '0'.toNat
    else if symbol.isLower then symbol.toNat - 'a'.toNat + 10
    else if symbol.isUpper then symbol.toNat - 'A'.toNat + 10
    else radix
  if digit < radix then some digit else none

/-- A number below a limit; a run of more digits than allowed is no number at all. -/
def readNumber (radix : Nat) (maxDigits : Option Nat) (allowZeroPrefix : Bool) (limit : Nat)
    (text : Text) : Option (Nat × Text) :=
  let digits := text.takeWhile fun symbol => (toDigit radix symbol).isSome
  let number := digits.foldl (fun number symbol =>
    number * radix + (toDigit radix symbol).getD 0) 0
  if digits = [] ∨ maxDigits.any (fun most => decide (most < digits.length)) = true then none
  else if allowZeroPrefix = false ∧ digits.head? = some '0' ∧ 1 < digits.length then none
  else if limit ≤ number then none
  else some (number, text.drop digits.length)

def readGivenChar (given : Char) (text : Text) : Option Text :=
  match text with
  | [] => none
  | symbol :: rest => if symbol = given then some rest else none

/-- What a reader takes, if it leaves nothing. -/
def parseWith {Parsed : Type*} (read : Text → Option (Parsed × Text)) (text : Text) :
    Option Parsed :=
  (read text).bind fun parsed => if parsed.2 = [] then some parsed.1 else none

/-! ## Addresses -/

structure Ipv4Addr where
  first : UInt8
  second : UInt8
  third : UInt8
  fourth : UInt8
  deriving DecidableEq, Repr

structure SocketAddrV4 where
  ip : Ipv4Addr
  port : UInt16
  deriving DecidableEq, Repr

inductive IpAddr where
  | v4 (address : Ipv4Addr)
  | v6 (groups : List UInt16)
  deriving DecidableEq, Repr

def Ipv4Addr.groups (address : Ipv4Addr) : List UInt16 :=
  [address.first.toUInt16 * 256 + address.second.toUInt16,
    address.third.toUInt16 * 256 + address.fourth.toUInt16]

def readOctet (text : Text) : Option (UInt8 × Text) :=
  (readNumber 10 (some 3) false (2 ^ 8) text).map fun parsed => (.ofNat parsed.1, parsed.2)

def readIpv4Addr (text : Text) : Option (Ipv4Addr × Text) := do
  let (first, text) ← readOctet text
  let (second, text) ← (readGivenChar '.' text).bind readOctet
  let (third, text) ← (readGivenChar '.' text).bind readOctet
  let (fourth, text) ← (readGivenChar '.' text).bind readOctet
  some ({ first := first, second := second, third := third, fourth := fourth }, text)

/--
The groups of an IPv6 address between colons, as many as there is room for, and
whether the last two were written as an IPv4 address.
-/
def readGroups : Nat → Bool → Text → List UInt16 × Bool × Text
  | 0, _, text => ([], false, text)
  | room + 1, atFront, text =>
      let next := if atFront then some text else readGivenChar ':' text
      match if room = 0 then none else next.bind readIpv4Addr with
      | some (address, rest) => (address.groups, true, rest)
      | none =>
          match next.bind (readNumber 16 (some 4) true (2 ^ 16)) with
          | none => ([], false, text)
          | some (group, rest) =>
              let (groups, dotted, rest) := readGroups room false rest
              (.ofNat group :: groups, dotted, rest)

/-- `::` stands for at least one group of zeros. -/
def readIpv6Addr (text : Text) : Option (List UInt16 × Text) :=
  let (head, dotted, rest) := readGroups 8 true text
  if head.length = 8 then some (head, rest)
  else if dotted then none
  else
    ((readGivenChar ':' rest).bind (readGivenChar ':')).map fun rest =>
      let (tail, _, rest) := readGroups (8 - (head.length + 1)) true rest
      (head ++ List.replicate (8 - head.length - tail.length) 0 ++ tail, rest)

def readIpAddr (text : Text) : Option (IpAddr × Text) :=
  ((readIpv4Addr text).map fun parsed => (.v4 parsed.1, parsed.2)).or
    ((readIpv6Addr text).map fun parsed => (.v6 parsed.1, parsed.2))

def readSocketAddrV4 (text : Text) : Option (SocketAddrV4 × Text) := do
  let (ip, text) ← readIpv4Addr text
  let (port, text) ← (readGivenChar ':' text).bind (readNumber 10 none true (2 ^ 16))
  some ({ ip := ip, port := .ofNat port }, text)

/-- `str::parse::<SocketAddrV4>`. -/
def parseSocketAddrV4 (text : Text) : Option SocketAddrV4 := parseWith readSocketAddrV4 text

/-- `str::parse::<IpAddr>`. -/
def parseIpAddr (text : Text) : Option IpAddr := parseWith readIpAddr text

def IpAddr.isLoopback (address : IpAddr) : Bool :=
  match address with
  | .v4 address => address.first == 127
  | .v6 groups => groups == List.replicate 7 0 ++ [1]

def isLoopbackHost (host : Text) : Bool :=
  host.map Char.toLower == "localhost".toList || (parseIpAddr host).any IpAddr.isLoopback

example : ["127.8.0.1", "::1", "0:0::0:1", "127.0.0.01", "1::2::3", "::ffff:127.0.0.1"].map
    (fun host => isLoopbackHost host.toList) = [true, true, true, false, false, false] := by
  decide +kernel

/-! ## Peering endpoints -/

/-- `str::parse::<u16>` succeeds. -/
def isPort (text : Text) : Bool :=
  let digits :=
    match text with
    | '+' :: rest => rest
    | _ => text
  !digits.isEmpty && digits.all Char.isDigit && decide (Nat.ofDigitChars 10 digits 0 < 2 ^ 16)

def validatePeeringEndpoint (endpoint : Text) (label : String) : Except String Unit :=
  match rsplitOnce ':' endpoint with
  | none => .error (label ++ " must be host:port")
  | some (host, port) =>
      if host = [] ∨ '/' ∈ host ∨ '@' ∈ host then
        .error (label ++ " must be a bare host:port with no scheme or credentials")
      else if isPort port then .ok ()
      else .error (label ++ " port must be a valid TCP port")

/-! ## The gRPC service of the box -/

/-- The parts of a parsed URL that the checks read. -/
structure Url where
  scheme : Text
  username : Text
  password : Option Text
  hostStr : Option Text
  port : Option UInt16
  path : Text
  query : Option Text
  fragment : Option Text
  deriving DecidableEq, Repr

def isBracket (symbol : Char) : Bool := symbol == '[' || symbol == ']'

/-- `validate_vpc_grpc_endpoint`, with the URL parser as a parameter. -/
def validateVpcGrpcEndpoint (parseUrl : Text → Option Url) (endpoint : Text) :
    Except String Text :=
  match parseUrl endpoint with
  | none => .error "invalid VPC gRPC endpoint"
  | some url =>
      if url.scheme ≠ "http".toList then
        .error "VPC gRPC endpoint must be a plaintext http:// loopback origin"
      else
        match url.hostStr with
        | none => .error "VPC gRPC endpoint must name a loopback host"
        | some host =>
            if isLoopbackHost (trimMatches isBracket host) = false then
              .error "VPC gRPC endpoint must be on this box (127.0.0.1, ::1 or localhost)"
            else if url.port.isNone then
              .error "VPC gRPC endpoint must carry an explicit port"
            else if url.username ≠ [] ∨ url.password.isSome then
              .error "VPC gRPC endpoint must not contain credentials"
            else if url.query.isSome ∨ url.fragment.isSome ∨
                (url.path ≠ [] ∧ url.path ≠ ['/']) then
              .error "VPC gRPC endpoint must be an origin without a path, query, or fragment"
            else .ok (endpoint.rdropWhile (· == '/'))

/-- A plaintext origin on the box itself. -/
structure Url.IsLoopbackOrigin (url : Url) : Prop where
  plaintext : url.scheme = "http".toList
  loopback : ∃ host, url.hostStr = some host ∧ isLoopbackHost (trimMatches isBracket host) = true
  explicit : url.port.isSome = true
  anonymous : url.username = [] ∧ url.password = none
  bare : url.query = none ∧ url.fragment = none ∧ (url.path = [] ∨ url.path = ['/'])

/-- The endpoint is used exactly if it is a loopback origin, without the slashes at its end. -/
theorem validateVpcGrpcEndpoint_eq_ok_iff {parseUrl : Text → Option Url} {endpoint origin : Text} :
    validateVpcGrpcEndpoint parseUrl endpoint = .ok origin ↔
      endpoint.rdropWhile (· == '/') = origin ∧
        ∃ url, parseUrl endpoint = some url ∧ url.IsLoopbackOrigin := by
  unfold validateVpcGrpcEndpoint
  constructor
  · intro accepted
    cases parsed : parseUrl endpoint with
    | none =>
        rw [parsed] at accepted
        cases accepted
    | some url =>
        rw [parsed] at accepted
        dsimp only at accepted
        cases named : url.hostStr with
        | none =>
            rw [named] at accepted
            split_ifs at accepted
        | some host =>
            rw [named] at accepted
            dsimp only at accepted
            split_ifs at accepted with scheme remote closed known directed
            rw [not_or] at known
            rw [not_or, not_or, not_and_or, not_not, not_not] at directed
            exact ⟨Except.ok.inj accepted, url, rfl,
              { plaintext := not_not.mp scheme
                loopback := ⟨host, named, Bool.eq_true_of_not_eq_false remote⟩
                explicit := by
                  rwa [Option.isNone_iff_eq_none, ← ne_eq, Option.ne_none_iff_isSome] at closed
                anonymous := ⟨not_not.mp known.1, Option.not_isSome_iff_eq_none.mp known.2⟩
                bare := ⟨Option.not_isSome_iff_eq_none.mp directed.1,
                  Option.not_isSome_iff_eq_none.mp directed.2.1, directed.2.2⟩ }⟩
  · rintro ⟨rfl, url, parsed, origin⟩
    obtain ⟨plaintext, ⟨host, named, loopback⟩, explicit, anonymous, bare⟩ := origin
    obtain ⟨port, given⟩ := Option.isSome_iff_exists.mp explicit
    rcases bare with ⟨noQuery, noFragment, empty | slash⟩
    · simp [parsed, plaintext, named, loopback, given, anonymous, noQuery, noFragment, empty]
    · simp [parsed, plaintext, named, loopback, given, anonymous, noQuery, noFragment, slash]

end MarketBenchmark
