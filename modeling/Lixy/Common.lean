import Lixy.Foundation.ByteStrings

/-! Shared constants and records of the daemon: address families, ports, socket
addresses, locators, the list wrapper, and the ways a computation can go wrong.
-/

namespace Lixy

open ByteStrings

-----------------------------------------------------------------------------------------
-- Constants of lisp.h, maptable.h and the socket headers
-----------------------------------------------------------------------------------------

abbrev afInet : Nat := 2
abbrev afInet6 : Nat := 10

abbrev lispAfiIpv4 : Nat := 1
abbrev lispAfiIpv6 : Nat := 2

abbrev lispControlPort : Nat := 4342
abbrev lispDataPort : Nat := 4341

/-- Minutes. -/
abbrev lispDefaultRecordTtl : Nat := 10

/-- Seconds. -/
abbrev mapttlDefault : BitVec 32 := 60

/-- Seconds. -/
abbrev mapttlCheckInterval : BitVec 32 := 10

/-- `LISPAFI_TO_AF` -/
def lispafiToAf (afi : Nat) : Int :=
  if afi = lispAfiIpv4 then afInet else if afi = lispAfiIpv6 then afInet6 else -1

/-- `AF_TO_LISPAFI`: every family but AF_INET counts as IPv6. -/
def afToLispafi (af : Nat) : Nat :=
  if af = afInet then lispAfiIpv4 else lispAfiIpv6

-----------------------------------------------------------------------------------------
-- Faults
-----------------------------------------------------------------------------------------

/-- The `assert`s of patricia.c that an input can fail. -/
inductive Assertion
  | stringFits      -- cp - string < MAXLINE
  | bitlenFits      -- prefix->bitlen <= patricia->maxbits
  | nodeHasPrefix   -- node->prefix
  | nodeHasNoData   -- node->data == NULL
  | rightFree       -- node->r == NULL
  | leftFree        -- node->l == NULL
deriving DecidableEq, Repr

/-- What ends a computation other than a return. -/
inductive Fault
  | assertFailed (site : Assertion)
  | nullDereference
  /-- A value that is no string reaches a `%s` conversion. -/
  | formatNonString
  /-- A read at or behind the end of the readable bytes. -/
  | readPast (off : Nat)
  /-- A write at or behind the end of the buffer. -/
  | writePast (off : Nat)
  /-- A tree walk goes on at an address that holds no node. -/
  | danglingNode
  | outOfSteps
deriving DecidableEq, Repr

section

variable {ε α β : Type}

/-- A sequence returns when its start does, and then its continuation. -/
theorem bind_eq_ok {x : Except ε α} {f : α → Except ε β} {b : β}
    : (x >>= f) = .ok b ↔ ∃ a, x = .ok a ∧ f a = .ok b := by
  cases x <;> simp [bind, Except.bind]

@[simp]
theorem pure_eq_ok {a b : α} : (pure a : Except ε α) = .ok b ↔ a = b := by
  simp [pure, Except.pure]

end

/-- A computation that only goes on after a step which returns, returns too. -/
theorem Fault.returns_bind {α β : Type} {x : Except Fault α} (h : ∃ a, x = .ok a)
    (f : α → β)
    : ∃ b, (x >>= fun a => pure (f a)) = .ok b := by
  obtain ⟨a, rfl⟩ := h
  exact ⟨f a, rfl⟩

/-- A bounds-checked access of the readable bytes. -/
def rd (pkt : List Byte) (off : Nat) : Except Fault Byte :=
  match pkt[off]? with
  | some b => .ok b
  | none => .error (.readPast off)

/-- `ntohs` of the two bytes at `off` -/
def rd16 (pkt : List Byte) (off : Nat) : Except Fault Nat := do
  let hi ← rd pkt off
  let lo ← rd pkt (off + 1)
  return be16 hi lo

/-- `ntohl` of the four bytes at `off` -/
def rd32 (pkt : List Byte) (off : Nat) : Except Fault (BitVec 32) := do
  let b0 ← rd pkt off
  let b1 ← rd pkt (off + 1)
  let b2 ← rd pkt (off + 2)
  let b3 ← rd pkt (off + 3)
  return be32 b0 b1 b2 b3

/-- Copy `n` bytes out of the readable bytes. -/
def rdBytes (pkt : List Byte) (off n : Nat) : Except Fault (Bytes n) :=
  match slice pkt off n with
  | some bs => .ok bs
  | none => .error (.readPast (max off pkt.length))

/-- Copy bytes into a buffer. -/
def wr (buf : List Byte) (off : Nat) (bs : List Byte) : Except Fault (List Byte) :=
  match overwrite buf off bs with
  | some out => .ok out
  | none => .error (.writePast (max off buf.length))

/-- An int where the format has `%s`: 0 is printed as a null pointer is, and any other number is
read as the address of a string.
-/
def formatString (value : Int) : Except Fault Unit :=
  if value = 0 then .ok () else .error .formatNonString

-----------------------------------------------------------------------------------------
-- Socket addresses and locators
-----------------------------------------------------------------------------------------

/-- `struct sockaddr_storage`, cut at the borders of the fields that lie in it.
The port is kept as `ntohs` reads it.
-/
structure SockaddrStorage where
  family : Nat
  /-- `sin_port`, `sin6_port` -/
  port : Nat
  /-- `sin_addr`; in an IPv6 address `sin6_flowinfo` -/
  sinAddr : Bytes 4
  /-- `sin6_addr`; in an IPv4 address the start of the padding -/
  sin6Addr : Bytes 16
  rest : Bytes 104
deriving DecidableEq

/-- A socket address after `memset (.., 0, ..)`. -/
def SockaddrStorage.zero : SockaddrStorage :=
  { family := 0, port := 0, sinAddr := zeros 4, sin6Addr := zeros 16, rest := zeros 104 }

/-- `FILL_SOCKADDR`, with the address at `off` in `pkt`; other families fill nothing. -/
def fillSockaddr (af : Int) (sa : SockaddrStorage) (pkt : List Byte) (off : Nat)
    : Except Fault SockaddrStorage :=
  if af = afInet then do
    let addr ← rdBytes pkt off 4
    return { sa with family := afInet, sinAddr := addr }
  else if af = afInet6 then do
    let addr ← rdBytes pkt off 16
    return { sa with family := afInet6, sin6Addr := addr }
  else
    return sa

/-- `struct locator` -/
structure Locator where
  locAddr : SockaddrStorage
  priority : Byte
  weight : Byte
  mPriority : Byte
  mWeight : Byte
deriving DecidableEq

-----------------------------------------------------------------------------------------
-- The list wrapper
-----------------------------------------------------------------------------------------

/-- `list_t`: the data linked from `head`, in order, and the counter kept beside them. -/
structure ListT (α : Type) where
  nodes : List α
  count : BitVec 32

/-- `create_list` -/
def createList {α : Type} : ListT α := { nodes := [], count := 0 }

/-- `append_listnode` -/
def appendListnode {α : Type} (list : ListT α) (data : α) : ListT α :=
  { nodes := list.nodes ++ [data], count := list.count + 1 }

/-- The list that appending `data` one by one to a fresh list builds. -/
def listOf {α : Type} (data : List α) : ListT α :=
  data.foldl appendListnode createList

/-- Appending to any list extends its nodes and counts them, by induction on the data. -/
theorem foldl_appendListnode {α : Type} (data : List α) (list : ListT α)
    : data.foldl appendListnode list
      = { nodes := list.nodes ++ data, count := list.count + BitVec.ofNat 32 data.length } := by
  induction data generalizing list with
  | nil => simp
  | cons head rest ih =>
      simp only [List.foldl_cons, ih, appendListnode, List.append_assoc,
        List.singleton_append, List.length_cons, ListT.mk.injEq, true_and]
      rw [BitVec.add_assoc, ← BitVec.ofNat_add_ofNat, BitVec.add_comm 1]
      rfl

@[simp]
theorem listOf_nodes {α : Type} (data : List α) : (listOf data).nodes = data := by
  simp [listOf, foldl_appendListnode, createList]

@[simp]
theorem listOf_count {α : Type} (data : List α)
    : (listOf data).count = BitVec.ofNat 32 data.length := by
  simp [listOf, foldl_appendListnode, createList]

end Lixy
