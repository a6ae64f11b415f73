import Lixy.MapTable.Operations

/-! The control-message parsers of map.c. `pkt` is the readable memory from the start of
the receive buffer on; every access is checked against its end.
-/

namespace Lixy

open ByteStrings

-----------------------------------------------------------------------------------------
-- Layout of lisp.h
-----------------------------------------------------------------------------------------

abbrev lispMapRqst : Nat := 1
abbrev lispMapRply : Nat := 2
abbrev lispEcapCtl : Nat := 8

/-- `LISP_MSG_BUF_LEN` of map.h -/
abbrev lispMsgBufLen : Nat := 1024

abbrev sizeofLispControl : Nat := 4
abbrev sizeofIp : Nat := 20
abbrev sizeofIp6Hdr : Nat := 40
abbrev sizeofUdphdr : Nat := 8
abbrev sizeofLispMapRequest : Nat := 12
abbrev sizeofLispMapRequestRecord : Nat := 4
abbrev sizeofLispMapReply : Nat := 12
abbrev sizeofLispRecord : Nat := 12
abbrev sizeofLispLocator : Nat := 8

/-- `LISP_LOCATOR_PKT_LEN`, from the locator's AFI: all but IPv4 counts as IPv6. -/
def lispLocatorPktLen (afi : Nat) : Nat :=
  sizeofLispLocator + if afi = lispAfiIpv4 then 4 else 16

/-- `LISP_RECORD_PKT_LEN`, from the EID prefix's AFI -/
def lispRecordPktLen (afi : Nat) : Nat :=
  sizeofLispRecord + if afi = lispAfiIpv4 then 4 else 16

/-- A C string: the bytes from `off` up to the first NUL. -/
def rdString (pkt : List Byte) (off : Nat) : Except Fault (List Byte) :=
  if 0 ∈ pkt.drop off then
    .ok ((pkt.drop off).takeWhile (· ≠ 0))
  else
    .error (.readPast (max off pkt.length))

-----------------------------------------------------------------------------------------
-- Addresses as text
-----------------------------------------------------------------------------------------

/-- Digits of a number up to 255 without a leading zero. -/
def isOctet (field : List Byte) : Bool :=
  field ≠ [] && field.all (fun c => 0x30 ≤ c && c ≤ 0x39)
    && (field.length = 1 || field.headD 0 ≠ 0x30)
    && field.foldl (fun val c => val * 10 + (c.toNat - 0x30)) 0 ≤ 255

/-- `inet_pton` accepts the text for AF_INET: four octets with dots between them. -/
def inetPton4 (src : List Byte) : Bool :=
  let fields := src.splitOn 0x2e
  fields.length = 4 && fields.all isOctet

/-- One to four hexadecimal digits. -/
def isHextet (field : List Byte) : Bool :=
  0 < field.length && field.length ≤ 4
    && field.all fun c =>
      0x30 ≤ c && c ≤ 0x39 || 0x41 ≤ c && c ≤ 0x46 || 0x61 ≤ c && c ≤ 0x66

/-- The 16-bit words that fields between colons stand for; the last field may be an IPv4
address, where `dotted` allows it.
-/
def fieldWords (dotted : Bool) : List (List Byte) → Option Nat
  | [] => some 0
  | field :: rest =>
      if isHextet field then
        (fieldWords dotted rest).map (· + 1)
      else if dotted && rest.isEmpty && inetPton4 field then
        some 2
      else
        none

/-- The words of a text on one side of `::`, or of a whole text without it. -/
def textWords (dotted : Bool) (src : List Byte) : Option Nat :=
  if src = [] then some 0 else fieldWords dotted (src.splitOn 0x3a)

/-- What stands before and behind the first `::`. -/
def splitCompressed : List Byte → Option (List Byte × List Byte)
  | 0x3a :: 0x3a :: rest => some ([], rest)
  | c :: rest => (splitCompressed rest).map fun sides => (c :: sides.1, sides.2)
  | [] => none

/-- `inet_pton` accepts the text for AF_INET6: eight words, or fewer around one `::`. -/
def inetPton6 (src : List Byte) : Bool :=
  match splitCompressed src with
  | none => textWords true src = some 8
  | some (front, back) =>
      match textWords false front, textWords true back with
      | some m, some n => m + n < 8
      | _, _ => false

/-- What `inet_pton` returns: 1 for an address of the family, 0 for another text, and -1 for
another family.
-/
def inetPton (af : Int) (src : List Byte) : Int :=
  if af = afInet then
    if inetPton4 src then 1 else 0
  else if af = afInet6 then
    if inetPton6 src then 1 else 0
  else
    -1

-----------------------------------------------------------------------------------------
-- Map-Reply
-----------------------------------------------------------------------------------------

/-- `ADDRTOPREFIX` of the EID prefix of the record at `record` to a zeroed prefix -/
def recordPrefix (pkt : List Byte) (record : Nat) : Except Fault Prefix := do
  let afi ← rd16 pkt (record + 10)
  let maskLen ← rd pkt (record + 5)
  addrToPrefix (lispafiToAf afi) pkt (record + sizeofLispRecord) maskLen.toNat .zero

/-- `process_lisp_map_reply_record_loc_is_zero`, for the record at `record` -/
def processLispMapReplyRecordLocIsZero (pkt : List Byte) (record : Nat) (lisp : Lisp)
    : Except Fault Lisp := do
  let mn : Mapnode := { Mapnode.zero with ttl := mapttlDefault, timer := 0 }
  let pfx ← recordPrefix pkt record
  let act := (← rd pkt (record + 6)) >>> 5
  match act.toNat with
  | 0 => return lisp
  | 1 =>
      let (rib, _) ← updateMapnode lisp.rib pfx { mn with state := .negative }
      return { lisp with rib }
  | 2 => return sendMapRequest pfx lisp
  | 3 =>
      let (rib, _) ← updateMapnode lisp.rib pfx { mn with state := .drop }
      return { lisp with rib }
  | _ =>
      -- the error line prints with `%s` the int that `inet_pton` makes of the address as text
      let afi ← rd16 pkt (record + 10)
      let text ← rdString pkt (record + sizeofLispRecord)
      formatString (inetPton (lispafiToAf afi) text)
      return lisp

/-- `lisp_locator_pkt_to_locator` -/
def lispLocatorPktToLocator (pkt : List Byte) (lisploc : Nat) : Except Fault Locator := do
  let afi ← rd16 pkt (lisploc + 6)
  let locAddr ←
    fillSockaddr (lispafiToAf afi) .zero pkt (lisploc + sizeofLispLocator)
  return {
    locAddr := { locAddr with port := lispDataPort }
    priority := ← rd pkt lisploc
    weight := ← rd pkt (lisploc + 1)
    mPriority := ← rd pkt (lisploc + 2)
    mWeight := ← rd pkt (lisploc + 3) }

/-- The loop that selects a locator: the one with the greatest priority value, the first
of equals. It returns the selected locator and the offset behind the last one.
-/
def selectLocator (pkt : List Byte) : Nat → Nat → Nat → Except Fault (Nat × Nat)
  | 0, lisploc, tmplisploc => .ok (lisploc, tmplisploc)
  | i + 1, lisploc, tmplisploc => do
      let selected ← rd pkt lisploc
      let offered ← rd pkt tmplisploc
      let afi ← rd16 pkt (tmplisploc + 6)
      selectLocator pkt i (if selected < offered then tmplisploc else lisploc)
        (tmplisploc + lispLocatorPktLen afi)

/-- The body of the record loop in `process_lisp_map_reply`. It returns the state, the
offset reached, and whether the loop goes on.
-/
def mapReplyRecord (pkt : List Byte) (pktlen : Nat) (lisp : Lisp)
    : Except Fault (Lisp × Nat × Bool) := do
  let record := pktlen
  let afi ← rd16 pkt (record + 10)
  let pktlen := pktlen + lispRecordPktLen afi
  let locatorCount ← rd pkt (record + 4)
  if locatorCount = 0 then
    let lisp ← processLispMapReplyRecordLocIsZero pkt record lisp
    return (lisp, pktlen, true)
  else
    let (lisploc, pktlen) ← selectLocator pkt locatorCount.toNat pktlen pktlen
    let pfx ← recordPrefix pkt record
    match ← searchMapnode lisp.rib pfx with
    | some (pn, mn) =>
        -- the entry found is refreshed, and the records behind this one are dropped
        return ({ lisp with rib := lisp.rib.write pn { mn with ttl := mapttlDefault } },
          pktlen, false)
    | none =>
        let recordTtl ← rd32 pkt record
        let locator ← lispLocatorPktToLocator pkt lisploc
        let (rib, stored) ← updateMapnode lisp.rib pfx
          { ttl := recordTtl * 60
            timer := 0
            state := .active
            addr := locator.locAddr
            locator }
        if stored then
          return (addRouteToTun pfx { lisp with rib }, pktlen, true)
        else
          return ({ lisp with rib }, pktlen, true)

/-- `for (n = 0; n < rep->record_count; n++)` -/
def mapReplyRecords (pkt : List Byte) : Nat → Nat → Lisp → Except Fault (Lisp × Nat)
  | 0, pktlen, lisp => .ok (lisp, pktlen)
  | n + 1, pktlen, lisp => do
      match ← mapReplyRecord pkt pktlen lisp with
      | (lisp, pktlen, true) => mapReplyRecords pkt n pktlen lisp
      | (lisp, pktlen, false) => return (lisp, pktlen)

/-- `process_lisp_map_reply`, with the offset `pktlen` it ends at -/
def processLispMapReply (pkt : List Byte) (lisp : Lisp) : Except Fault (Lisp × Nat) := do
  let recordCount ← rd pkt 3
  mapReplyRecords pkt recordCount.toNat sizeofLispMapReply lisp

-----------------------------------------------------------------------------------------
-- Map-Request
-----------------------------------------------------------------------------------------

/-- `REQUEST_LOC_LEN`, from the ITR-RLOC's AFI -/
def requestLocLen (afi : Nat) : Nat :=
  if afi = lispAfiIpv4 then 2 + 4 else if afi = lispAfiIpv6 then 2 + 16 else 2

/-- The loop over the ITR-RLOCs: the offset behind the last one. -/
def skipItrRlocs (pkt : List Byte) : Nat → Nat → Except Fault Nat
  | 0, pktlen => .ok pktlen
  | n + 1, pktlen => do
      let afi ← rd16 pkt pktlen
      skipItrRlocs pkt n (pktlen + requestLocLen afi)

/-- `process_lisp_map_request` up to its call of `send_map_reply`, whose arguments it
returns: the prefix, the nonce and the ETR's address. Without the probe flag there is no
call.
-/
def processLispMapRequest (pkt : List Byte)
    : Except Fault (Option (Prefix × List Byte × SockaddrStorage)) := do
  let flags ← rd pkt 0
  if flags.getLsbD 1 = false then
    return none
  else
    let pktlen := sizeofLispMapRequest
    -- source EID AFI and address
    let locafi ← rd16 pkt pktlen
    let pktlen := pktlen + 2
    let etrAddr ← fillSockaddr (lispafiToAf locafi)
      { SockaddrStorage.zero with family := ((lispafiToAf locafi) % 65536).toNat } pkt pktlen
    let pktlen := pktlen + if locafi = lispAfiIpv4 then 4 else 16
    -- ITR-RLOC AFI and address
    let irc := (← rd pkt 2) &&& 0x1f
    let pktlen ← skipItrRlocs pkt (irc.toNat + 1) pktlen
    let qrec := pktlen
    let pktlen := pktlen + sizeofLispMapRequestRecord
    let afi ← rd16 pkt (qrec + 2)
    let maskLen ← rd pkt (qrec + 1)
    let pfx ← addrToPrefix (lispafiToAf afi) pkt pktlen maskLen.toNat .zero
    let nonce ← rdBytes pkt 4 8
    return some (pfx, nonce.toList, etrAddr)

-----------------------------------------------------------------------------------------
-- Dispatch
-----------------------------------------------------------------------------------------

/-- What `process_lisp_map_message` hands a datagram to. -/
inductive Dispatch
  | mapReply
  | mapRequest
  | dropped
deriving DecidableEq, Repr

/-- The type that `process_lisp_map_message` switches on. Behind an encapsulation header
it is read from the inner message; the error line for another IP version has `%s` for it.
-/
def dispatch (pkt : List Byte) : Except Fault Dispatch := do
  let type := (← rd pkt 0) >>> 4
  let ctl ←
    if type.toNat = lispEcapCtl then do
      let ipV := (← rd pkt sizeofLispControl) >>> 4
      match ipV.toNat with
      | 4 => pure (some (sizeofLispControl + sizeofIp + sizeofUdphdr))
      | 6 => pure (some (sizeofLispControl + sizeofIp6Hdr + sizeofUdphdr))
      | other => do
          formatString other
          pure none
    else
      pure (some 0)
  match ctl with
  | none => return .dropped
  | some ctl =>
      let type := (← rd pkt ctl) >>> 4
      if type.toNat = lispMapRply then
        return .mapReply
      else if type.toNat = lispMapRqst then
        return .mapRequest
      else
        return .dropped

/-- `process_lisp_map_message`. The parsers get the start of the datagram, also when their
message lies behind an encapsulation header.
-/
def processLispMapMessage (pkt : List Byte) (lisp : Lisp) : Except Fault Lisp := do
  match ← dispatch pkt with
  | .mapReply =>
      let (lisp, _) ← processLispMapReply pkt lisp
      return lisp
  | .mapRequest =>
      match ← processLispMapRequest pkt with
      | some call => return { lisp with mapReplies := call :: lisp.mapReplies }
      | none => return lisp
  | .dropped => return lisp

end Lixy
