import Mathlib.Data.Fintype.Pi

/-!
# Socket addresses in text

An address and a port: `10.0.0.1:80`, `[fe80::1%2]:80`.  The parser is the one of Rust's standard library.  Each of its
parts takes what it reads off the front of the text, or fails and takes nothing; the text must be used up at the end.  A
name is no address, whatever it stands for.
-/

namespace SocketAddr

structure Ipv4Addr where
  a : UInt8
  b : UInt8
  c : UInt8
  d : UInt8
  deriving DecidableEq

/-- An address of eight groups -/
abbrev Ipv6Addr := Fin 8 → UInt16

inductive Addr
  | v4 (ip : Ipv4Addr) (port : UInt16)
  | v6 (ip : Ipv6Addr) (port : UInt16) (scopeId : UInt32)
  deriving DecidableEq

def Addr.isIpv6 : Addr → Bool
  | .v4 .. => false
  | .v6 .. => true

/-- What is read, and the rest of the text -/
abbrev Parser (α : Type) := List Char → Option (α × List Char)

/-! ### Characters and numbers -/

/-- `char::to_digit` -/
def toDigit (radix : Nat) (c : Char) : Option Nat :=
  let digit :=
    if '0' ≤ c ∧ c ≤ '9' then some (c.toNat - '0'.toNat)
    else if 'a' ≤ c ∧ c ≤ 'z' then some (c.toNat - 'a'.toNat + 10)
    else if 'A' ≤ c ∧ c ≤ 'Z' then some (c.toNat - 'A'.toNat + 10)
    else none
  digit.filter fun d => d < radix

def readGivenChar (target : Char) : List Char → Option (List Char)
  | [] => none
  | c :: s => if c = target then some s else none

/-- `read_number`: all digits at the front, the value of which must fit below `bound` -/
def readNumber (radix : Nat) (maxDigits : Option Nat) (allowZeroPrefix : Bool) (bound : Nat) : Parser Nat := fun s =>
  let digits := s.takeWhile fun c => (toDigit radix c).isSome
  let value := digits.foldl (fun n c => n * radix + (toDigit radix c).getD 0) 0
  if digits = [] then none
  else if maxDigits.any fun n => n < digits.length then none
  else if allowZeroPrefix = false ∧ digits.head? = some '0' ∧ 1 < digits.length then none
  else if bound ≤ value then none
  else some (value, s.drop digits.length)

/-- `read_separator`: the separator stands before every part but the first. -/
def readSeparator (sep : Char) (index : Nat) (inner : Parser Nat) : Parser Nat := fun s =>
  if index = 0 then inner s else (readGivenChar sep s).bind inner

/-! ### Addresses -/

/-- No octet begins with a zero that is not all of it. -/
def readOctet (index : Nat) : Parser Nat := readSeparator '.' index (readNumber 10 (some 3) false (2 ^ 8))

def readIpv4Addr : Parser Ipv4Addr := fun s => do
  let (a, s) ← readOctet 0 s
  let (b, s) ← readOctet 1 s
  let (c, s) ← readOctet 2 s
  let (d, s) ← readOctet 3 s
  some (⟨UInt8.ofNat a, UInt8.ofNat b, UInt8.ofNat c, UInt8.ofNat d⟩, s)

def readGroup (index : Nat) : Parser Nat := readSeparator ':' index (readNumber 16 (some 4) true (2 ^ 16))

/-- The two groups of an embedded IPv4 address -/
def Ipv4Addr.groups (ip : Ipv4Addr) : List UInt16 :=
  [ip.a.toUInt16 * 256 + ip.b.toUInt16, ip.c.toUInt16 * 256 + ip.d.toUInt16]

/-- An IPv4 address in the place of two groups -/
def readEmbedded (index : Nat) : Parser Ipv4Addr := fun s =>
  if index = 0 then readIpv4Addr s else (readGivenChar ':' s).bind readIpv4Addr

/-- `read_groups` for the groups from `index` on, `left` of them at most: the groups, whether they end with an IPv4
address, and the rest of the text -/
def readGroups : (left index : Nat) → List Char → List UInt16 × Bool × List Char
  | 0, _, s => ([], false, s)
  | left + 1, index, s =>
    -- an IPv4 address takes two groups
    match if 0 < left then readEmbedded index s else none with
    | some (ip, s) => (ip.groups, true, s)
    | none =>
      match readGroup index s with
      | some (group, s) =>
        let (groups, ipv4, s) := readGroups left (index + 1) s
        (UInt16.ofNat group :: groups, ipv4, s)
      | none => ([], false, s)

/-- The groups before and after `::` -/
def ofGroups (head tail : List UInt16) : Ipv6Addr := fun i =>
  if i < head.length then head.getD i 0
  else if 8 - tail.length ≤ i then tail.getD (i - (8 - tail.length)) 0
  else 0

def readIpv6Addr : Parser Ipv6Addr := fun s =>
  let (head, headIpv4, s) := readGroups 8 0 s
  if head.length = 8 then some (ofGroups head [], s)
  else if headIpv4 then none
  else do
    let s ← readGivenChar ':' s
    let s ← readGivenChar ':' s
    let (tail, _, s) := readGroups (8 - (head.length + 1)) 0 s
    some (ofGroups head tail, s)

def readPort : Parser Nat := fun s => (readGivenChar ':' s).bind (readNumber 10 none true (2 ^ 16))

def readScopeId : Parser Nat := fun s => (readGivenChar '%' s).bind (readNumber 10 none true (2 ^ 32))

def readSocketAddrV4 : Parser Addr := fun s => do
  let (ip, s) ← readIpv4Addr s
  let (port, s) ← readPort s
  some (.v4 ip (UInt16.ofNat port), s)

def readSocketAddrV6 : Parser Addr := fun s => do
  let s ← readGivenChar '[' s
  let (ip, s) ← readIpv6Addr s
  let (scopeId, s) := (readScopeId s).getD (0, s)
  let s ← readGivenChar ']' s
  let (port, s) ← readPort s
  some (.v6 ip (UInt16.ofNat port) (UInt32.ofNat scopeId), s)

def readSocketAddr : Parser Addr := fun s => (readSocketAddrV4 s).or (readSocketAddrV6 s)

/-- `str::parse::<SocketAddr>` -/
def parse (text : List Char) : Option Addr :=
  match readSocketAddr text with
  | some (addr, []) => some addr
  | _ => none

/-! ### What is no address -/

variable {c : Char} {s rest : List Char}

theorem readNumber_of_not_digit {radix bound : Nat} {maxDigits : Option Nat} {allowZeroPrefix : Bool}
    (hc : toDigit radix c = none) : readNumber radix maxDigits allowZeroPrefix bound (c :: rest) = none := by
  have hdigits : (c :: rest).takeWhile (fun c => (toDigit radix c).isSome) = [] := by
    rw [List.takeWhile_cons, hc]
    rfl
  simp only [readNumber, hdigits, if_true]

theorem readSocketAddrV4_of_not_digit (hc : toDigit 10 c = none) : readSocketAddrV4 (c :: rest) = none := by
  have hoctet : readOctet 0 (c :: rest) = none := by
    rw [readOctet, readSeparator, if_pos rfl]
    exact readNumber_of_not_digit hc
  have hip : readIpv4Addr (c :: rest) = none := by
    rw [readIpv4Addr, hoctet]
    rfl
  rw [readSocketAddrV4, hip]
  rfl

theorem readSocketAddrV6_of_not_bracket (hc : c ≠ '[') : readSocketAddrV6 (c :: rest) = none := by
  rw [readSocketAddrV6, readGivenChar, if_neg hc]
  rfl

/-- An address begins with a digit or a bracket. -/
theorem parse_of_not_digit (hc : toDigit 10 c = none) (hbracket : c ≠ '[') : parse (c :: rest) = none := by
  rw [parse, readSocketAddr, readSocketAddrV4_of_not_digit hc, readSocketAddrV6_of_not_bracket hbracket]
  rfl

end SocketAddr
