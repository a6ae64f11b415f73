import Lixy.Daemon.Events

/-! C strings of the control commands: their comparison, the numerals and addresses they
stand for. A string is kept without its terminating NUL.
-/

namespace Lixy.Control

open ByteStrings

/-- The bytes of a literal. -/
def ascii (literal : String) : List Byte := literal.toList.map fun c => BitVec.ofNat 8 c.toNat

/-- `args`: the strings of a command line, NULL behind the last. -/
abbrev Args := Nat → Option (List Byte)

/-- What ends a command other than a return. -/
inductive CommandFault
  /-- NULL is passed to a function that reads a string. -/
  | absentArgument
  /-- A copy goes behind the end of a buffer of `size` bytes. -/
  | overflow (size : Nat)
  /-- What the command calls ends so. -/
  | called (fault : Fault)
deriving DecidableEq, Repr

/-- A call that ends a command where it does not return. -/
def call {α : Type} (x : Except Fault α) : Except CommandFault α := x.mapError .called

/-- A string argument that is used without a test for NULL. -/
def present : Option (List Byte) → Except CommandFault (List Byte)
  | some arg => .ok arg
  | none => .error .absentArgument

/-- `strcmp (arg, literal) == 0` -/
def strcmp (arg : Option (List Byte)) (literal : String) : Except CommandFault Bool := do
  return (← present arg) == ascii literal

theorem call_eq_ok {α : Type} {x : Except Fault α} {a : α} : call x = .ok a ↔ x = .ok a := by
  cases x <;> simp [call, Except.mapError]

theorem present_eq_ok {arg : Option (List Byte)} {word : List Byte}
    : present arg = .ok word ↔ arg = some word := by
  cases arg <;> simp [present]

theorem strcmp_eq_ok {arg : Option (List Byte)} {literal : String} {same : Bool}
    : strcmp arg literal = .ok same ↔ arg ≠ none ∧ (same = true ↔ arg = some (ascii literal)) := by
  cases arg with
  | none => simp [strcmp, present, bind, Except.bind]
  | some word => cases same <;> simp [strcmp, present, bind, Except.bind, pure, Except.pure]

/-- `strncmp (s1, s2, n) == 0`; behind its end a string reads as NUL. -/
def strncmp : Nat → List Byte → List Byte → Bool
  | 0, _, _ => true
  | n + 1, s1, s2 =>
      if s1.headD 0 ≠ s2.headD 0 then
        false
      else if s1.headD 0 = 0 then
        true
      else
        strncmp n s1.tail s2.tail

/-- `strncpy` to a field of `n` bytes: cut there, or filled up with NULs. -/
def strncpy (n : Nat) (src : List Byte) : Bytes n :=
  ⟨src.take n ++ List.replicate (n - src.length) 0, by simp; omega⟩

/-- `memcpy` to the start of a field or a variable of `n` bytes. -/
def memcpy {n : Nat} (dst : Bytes n) (src : List Byte) : Except CommandFault (Bytes n) :=
  if h : src.length ≤ n then
    .ok ⟨src ++ dst.toList.drop src.length, by simp; omega⟩
  else
    .error (.overflow n)

-----------------------------------------------------------------------------------------
-- Numerals
-----------------------------------------------------------------------------------------

/-- `isdigit` -/
def isDigit (c : Byte) : Bool := 0x30 ≤ c && c ≤ 0x39

/-- `c - '0'` for a digit -/
def digit (c : Byte) : Nat := c.toNat - 0x30

/-- `isspace` -/
def isSpace (c : Byte) : Bool := c == 0x20 || (0x09 ≤ c && c ≤ 0x0d)

/-- The number that the leading digits stand for. -/
def digits (str : List Byte) : Nat :=
  (str.takeWhile isDigit).foldl (fun val c => val * 10 + digit c) 0

/-- `atol`: blanks, a sign and digits, saturated to the 64 bits of a long. -/
def atol (str : List Byte) : Int :=
  match str.dropWhile isSpace with
  | [] => 0
  | c :: rest =>
      if c = 0x2d then
        max (-(digits rest : Int)) (-2 ^ 63)
      else if c = 0x2b then
        min (digits rest) (2 ^ 63 - 1)
      else
        min (digits (c :: rest)) (2 ^ 63 - 1)

/-- `atoi`: the low half of what `atol` gives -/
def atoi (str : List Byte) : BitVec 32 := BitVec.ofInt 32 (atol str)

-----------------------------------------------------------------------------------------
-- Addresses and prefixes
-----------------------------------------------------------------------------------------

/-- One octet of `my_inet_pton`, read on to `val`, with what follows its digits. -/
def octet : List Byte → Nat → Option (Nat × List Byte)
  | [], val => some (val, [])
  | c :: rest, val =>
      if isDigit c then
        if val * 10 + digit c > 255 then none else octet rest (val * 10 + digit c)
      else
        some (val, c :: rest)

/-- The loop of `my_inet_pton` with up to the given number of octets to come. -/
def octets : Nat → List Byte → Option (List Nat)
  | 0, _ => none
  | n + 1, str =>
      if isDigit (str.headD 0) = false then
        none
      else
        match octet str 0 with
        | none => none
        | some (val, []) => some [val]
        | some (val, c :: rest) => if c = 0x2e then (octets n rest).map (val :: ·) else none

/-- `my_inet_pton` for AF_INET: up to four octets, missing ones are 0. -/
def myInetPton (src : List Byte) : Option (Bytes 16) :=
  (octets 4 src).map fun vals =>
    ⟨(vals.map (BitVec.ofNat 8) ++ List.replicate 16 0).take 16, by simp⟩

/-- The number behind the slash, if there is one; a `u_long`. -/
def bitlenOf (string : List Byte) : Except Fault (Option Nat) :=
  if 0x2f ∉ string then
    .ok none
  else
    let address := string.takeWhile (· ≠ 0x2f)
    if address.length < 1024 then
      .ok (some (atol (string.drop (address.length + 1)) % 2 ^ 64).toNat)
    else
      .error (.assertFailed .stringFits)

/-- `ascii2prefix`, with `inet_pton` for AF_INET6 as a parameter -/
def ascii2prefix (inetPton6 : List Byte → Option (Bytes 16)) (family : Nat) (string : List Byte)
    : Except Fault (Option Prefix) := do
  let bitlen ← bitlenOf string
  let address := string.takeWhile (· ≠ 0x2f)
  let parsed := if family = afInet then myInetPton address else inetPton6 address
  return parsed.bind fun address => Lixy.ascii2prefix family address bitlen

/-- A parsed prefix is valid: its length is cut to the family's. -/
theorem ascii2prefix_valid {inetPton6 : List Byte → Option (Bytes 16)} {family : Nat}
    {text : List Byte} {pfx : Prefix} (parsed : ascii2prefix inetPton6 family text = .ok (some pfx))
    : pfx.Valid := by
  obtain ⟨bitlen, _, parsed⟩ := bind_eq_ok.mp parsed
  obtain ⟨address, _, prefixed⟩ := Option.bind_eq_some_iff.mp (pure_eq_ok.mp parsed)
  exact @Destination.dstPrefix_valid ⟨family, address, bitlen⟩ pfx prefixed

end Lixy.Control
