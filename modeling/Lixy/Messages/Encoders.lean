import Lixy.Messages.Parsers

/-! The control-message encoders of map.c. `buf` is the caller's buffer, with whatever it held;
a write behind its end is a fault. Each returns the buffer and the message's length, or nothing
where the source returns -1.
-/

namespace Lixy

open ByteStrings

-----------------------------------------------------------------------------------------
-- Fixed headers
-----------------------------------------------------------------------------------------

abbrev lispMapRgst : Nat := 3
abbrev shaDigestLength : Nat := 20
abbrev sizeofLispMapRegister : Nat := 36

/-- An encoder's result. -/
abbrev Encoded := Option (List Byte × Nat)

/-- `struct lisp_control` with a type and no flags -/
def lispControl (type : Nat) : List Byte := [BitVec.ofNat 8 (type * 16), 0, 0, 0]

/-- `set_ip_hdr` -/
def setIpHdr (dataLen : Nat) (src dst : Bytes 4) : List Byte :=
  [0x45, 0] ++ put16 (sizeofIp + sizeofUdphdr + dataLen)
    ++ [0, 0, 0, 0, 255, 17, 0, 0] ++ src.toList ++ dst.toList

/-- `set_ip6_hdr` -/
def setIp6Hdr (dataLen : Nat) (src dst : Bytes 16) : List Byte :=
  [0x6e, 0, 0, 0] ++ put16 (sizeofUdphdr + dataLen) ++ [17, 64] ++ src.toList ++ dst.toList

/-- `set_udp_hdr` -/
def setUdpHdr (uLen srcport dstport : Nat) : List Byte :=
  put16 srcport ++ put16 dstport ++ put16 uLen ++ [0, 0]

/-- The 16-bit words of `chksum` as a little-endian machine reads them, summed up. -/
def sumWords : List Byte → Nat
  | lo :: hi :: rest => be16 hi lo + sumWords rest
  | _ => 0

/-- `chksum` -/
def chksum (buf : List Byte) : Nat :=
  let sum := sumWords buf % 2 ^ 32
  let sum := sum / 65536 + sum % 65536
  let sum := (sum + sum / 65536) % 2 ^ 32
  (65535 - sum % 65536)

/-- `get_locator`: the first locator of a family, 0 standing for any. -/
def getLocator (locTuple : ListT Locator) (af : Nat) : Option Locator :=
  if locTuple.count = 0 then
    none
  else
    locTuple.nodes.find? (fun loc => af = loc.locAddr.family ∨ af = 0)

/-- The bytes that the switches over a family copy of an address: none for an unknown one. -/
def familyAddr (family : Nat) (sinAddr : Bytes 4) (sin6Addr : Bytes 16) : Option (List Byte) :=
  if family = afInet then
    some sinAddr.toList
  else if family = afInet6 then
    some sin6Addr.toList
  else
    none

/-- The address of a prefix. -/
def Prefix.addr (pfx : Prefix) : Option (List Byte) :=
  familyAddr pfx.family (Lixy.sin pfx.add) pfx.add

/-- The address of a socket address. -/
def SockaddrStorage.addr (sa : SockaddrStorage) : Option (List Byte) :=
  familyAddr sa.family sa.sinAddr sa.sin6Addr

-----------------------------------------------------------------------------------------
-- Records with locators
-----------------------------------------------------------------------------------------

/-- `struct lisp_record` as `set_lisp_map_register` and `set_lisp_map_reply` fill it. -/
def lispRecord (locTuple : ListT Locator) (pfx : Prefix) : List Byte :=
  put32 lispDefaultRecordTtl
    ++ [BitVec.ofNat 8 locTuple.count.toNat, BitVec.ofNat 8 pfx.bitlen, 0, 0, 0, 0]
    ++ put16 (afToLispafi pfx.family)

/-- `struct lisp_locator` for a configured locator, with the R and L flags -/
def lispLocator (loc : Locator) : List Byte :=
  [loc.priority, loc.weight, loc.mPriority, loc.mWeight, 0, 5]
    ++ put16 (afToLispafi loc.locAddr.family)

/-- The record and its EID prefix. -/
def setRecord (buf : List Byte) (pktlen : Nat) (locTuple : ListT Locator) (pfx : Prefix)
    : Except Fault (List Byte × Nat) := do
  let buf ← wr buf pktlen (lispRecord locTuple pfx)
  let pktlen := pktlen + sizeofLispRecord
  match pfx.addr with
  | some addr =>
      let buf ← wr buf pktlen addr
      return (buf, pktlen + addr.length)
  | none => return (buf, pktlen)

/-- The loop over the configured locators. The error line for an unknown family has `%s` for it. -/
def setLocators (buf : List Byte) (pktlen : Nat) : List Locator → Except Fault Encoded
  | [] => .ok (some (buf, pktlen))
  | tmploc :: rest => do
      let buf ← wr buf pktlen (lispLocator tmploc)
      let pktlen := pktlen + sizeofLispLocator
      match tmploc.locAddr.addr with
      | some addr =>
          let buf ← wr buf pktlen addr
          setLocators buf (pktlen + addr.length) rest
      | none => do
          formatString tmploc.locAddr.family
          return none

/-- `set_lisp_map_reply` -/
def setLispMapReply (buf : List Byte) (locTuple : ListT Locator) (pfx : Prefix)
    (nonce : Bytes 8)
    : Except Fault Encoded := do
  let buf ← wr buf 0 ([BitVec.ofNat 8 (lispMapRply * 16 + 8), 0, 0, 1] ++ nonce.toList)
  let (buf, pktlen) ← setRecord buf sizeofLispMapReply locTuple pfx
  setLocators buf pktlen locTuple.nodes

/-- `hmac` over the first `size` bytes of the buffer, to the 20 bytes at `md`. The digest is a
function of the key and the message.
-/
def hmac (hmacSha1 : List Byte → List Byte → Bytes shaDigestLength) (buf : List Byte)
    (md size : Nat) (key : List Byte)
    : Except Fault (List Byte) :=
  wr buf md (hmacSha1 key (buf.take size)).toList

/-- `set_lisp_map_register`; `key` is the memory from the key on, `nonce` what `set_nonce`
draws.
-/
def setLispMapRegister (hmacSha1 : List Byte → List Byte → Bytes shaDigestLength)
    (buf : List Byte) (locTuple : ListT Locator) (pfx : Prefix) (key : List Byte)
    (nonce : Bytes 8)
    : Except Fault Encoded := do
  let buf ← wr buf 0
    ([BitVec.ofNat 8 (lispMapRgst * 16 + 8), 0, 0, 1] ++ List.replicate 8 0 ++ put16 1
      ++ put16 shaDigestLength ++ List.replicate shaDigestLength 0)
  let record ← setRecord buf sizeofLispMapRegister locTuple pfx
  -- the source draws the nonce between the record's fields and its address
  let buf ← wr record.1 4 nonce.toList
  match ← setLocators buf record.2 locTuple.nodes with
  | some (buf, pktlen) =>
      let key ← rdString key 0
      let buf ← hmac hmacSha1 buf 16 pktlen key
      return some (buf, pktlen)
  | none => return none

-----------------------------------------------------------------------------------------
-- Map-Request
-----------------------------------------------------------------------------------------

/-- The loop over the ITR-RLOCs. Each AFI goes to `ptr`, which does not move. -/
def setItrRlocs (buf : List Byte) (ptr pktlen : Nat) : List Locator → Except Fault Encoded
  | [] => .ok (some (buf, pktlen))
  | loc :: rest =>
      match loc.locAddr.addr with
      | some addr => do
          let buf ← wr buf ptr (put16 (afToLispafi loc.locAddr.family))
          let pktlen := pktlen + 2
          let buf ← wr buf pktlen addr
          setItrRlocs buf ptr (pktlen + addr.length) rest
      | none => return none

/-- The record behind the ITR-RLOCs, with its EID prefix. -/
def setRequestRecord (buf : List Byte) (pktlen : Nat) (pfx : Prefix) (addr : List Byte)
    : Except Fault (List Byte × Nat) := do
  let buf ← wr buf pktlen ([0, BitVec.ofNat 8 pfx.bitlen] ++ put16 (afToLispafi pfx.family))
  let pktlen := pktlen + sizeofLispMapRequestRecord
  let buf ← wr buf pktlen addr
  return (buf, pktlen + addr.length)

/-- What is set once the length is known: the IP and UDP lengths and the IP checksum. -/
def setLengths (buf : List Byte) (pktlen : Nat) (pfx : Prefix) : Except Fault (List Byte) :=
  if pfx.family = afInet then do
    let buf ← wr buf (sizeofLispControl + 2) (put16 (pktlen - sizeofLispControl))
    let buf ← wr buf (sizeofLispControl + sizeofIp + 4)
      (put16 (pktlen - sizeofLispControl - sizeofIp))
    let ip ← rdBytes buf sizeofLispControl sizeofIp
    wr buf (sizeofLispControl + 10) (put16 (chksum ip.toList)).reverse
  else do
    let buf ← wr buf (sizeofLispControl + 4) (put16 (pktlen - sizeofLispControl - sizeofIp6Hdr))
    wr buf (sizeofLispControl + sizeofIp6Hdr + 4)
      (put16 (pktlen - sizeofLispControl - sizeofIp6Hdr))

/-- `set_lisp_map_request`; `nonce` is what `set_nonce` draws. -/
def setLispMapRequest (buf : List Byte) (locTuple : ListT Locator) (pfx : Prefix)
    (nonce : Bytes 8)
    : Except Fault Encoded := do
  let buf ← wr buf 0 (lispControl lispEcapCtl)
  let pktlen := sizeofLispControl
  let src := match getLocator locTuple pfx.family with
    | some loc => loc.locAddr
    | none => { SockaddrStorage.zero with family := pfx.family }
  match pfx.addr with
  | none => return none
  | some addr =>
      let iphdr :=
        if pfx.family = afInet then
          setIpHdr 0 src.sinAddr (Lixy.sin pfx.add)
        else
          setIp6Hdr 0 src.sin6Addr pfx.add
      let buf ← wr buf pktlen iphdr
      let pktlen := pktlen + iphdr.length
      let buf ← wr buf pktlen (setUdpHdr 0 lispControlPort lispControlPort)
      let pktlen := pktlen + sizeofUdphdr
      -- the count of ITR-RLOCs less one, in 5 bits
      let irc := (locTuple.count - 1).toNat % 32
      let buf ← wr buf pktlen
        ([BitVec.ofNat 8 (lispMapRqst * 16), 0, BitVec.ofNat 8 irc, 1] ++ nonce.toList)
      let pktlen := pktlen + sizeofLispMapRequest
      let buf ← wr buf pktlen (put16 0)
      let pktlen := pktlen + 2
      match ← setItrRlocs buf pktlen pktlen locTuple.nodes with
      | none => return none
      | some (buf, pktlen) =>
          let (buf, pktlen) ← setRequestRecord buf pktlen pfx addr
          let buf ← setLengths buf pktlen pfx
          return some (buf, pktlen)

end Lixy
