import Lixy.Messages.ReadBounds
import Lixy.Messages.RequestLayout

/-! Map-Request probes of the format, when `process_lisp_map_request` answers them for the
prefix they ask for, and where it sends the answer. A source EID without an address is taken
for one of IPv6; one with an address is where the answer goes, to port 0.
-/

namespace Lixy

open ByteStrings

-----------------------------------------------------------------------------------------
-- The format
-----------------------------------------------------------------------------------------

/-- The AFI in front of the address; AFI 0 stands alone. -/
def AfiAddress.bytes : AfiAddress → List Byte
  | none => put16 0
  | ipv4 addr => put16 lispAfiIpv4 ++ addr.toList
  | ipv6 addr => put16 lispAfiIpv6 ++ addr.toList

/-- A well-formed Map-Request with the probe flag. -/
structure ProbeRequest where
  flags : Byte
  typed : (flags >>> 4).toNat = lispMapRqst
  probe : flags.getLsbD 1 = true
  reserved : Byte
  irc : Byte
  recordCount : Byte
  nonce : Bytes 8
  source : AfiAddress
  itrRlocs : List AfiAddress
  counted : itrRlocs.length = (irc &&& 0x1f).toNat + 1
  located : ∀ rloc ∈ itrRlocs, rloc ≠ .none
  recordReserved : Byte
  eid : Prefix
  valid : eid.Valid

namespace ProbeRequest

/-- The header with the nonce. -/
def header (request : ProbeRequest) : List Byte :=
  [request.flags, request.reserved, request.irc, request.recordCount] ++ request.nonce.toList

/-- The fixed part of the record. -/
def record (request : ProbeRequest) : List Byte :=
  [request.recordReserved, BitVec.ofNat 8 request.eid.bitlen]
    ++ put16 (afToLispafi request.eid.family)

/-- The message up to the end of its first record. -/
def bytes (request : ProbeRequest) : List Byte :=
  request.header ++ request.source.bytes ++ request.itrRlocs.flatMap AfiAddress.bytes
    ++ request.record ++ request.eid.addr.getD []

end ProbeRequest

/-- The request is answered with its nonce and for the prefix. -/
def AnsweredFor (pkt : List Byte) (nonce : Bytes 8) (eid : Prefix) : Prop :=
  ∃ pfx etrAddr, processLispMapRequest pkt = .ok (some (pfx, nonce.toList, etrAddr))
    ∧ ParsedFrom pfx eid

/-- The record at an offset is inside and carries the prefix. -/
def HoldsRecord (pkt : List Byte) (record : Nat) (eid : Prefix) : Prop :=
  (byteAt pkt (record + 1)).toNat = eid.bitlen
    ∧ field16 pkt (record + 2) = afToLispafi eid.family
    ∧ LiesAt pkt (record + 4) (eid.addr.getD [])

-----------------------------------------------------------------------------------------
-- The record that is found
-----------------------------------------------------------------------------------------

section

variable {pkt : List Byte} {eid : Prefix} {record : Nat}

/-- A parsed prefix that comes from a valid one was parsed from that one's fields. -/
theorem ParsedFrom.fields {off afi len : Nat} {pfx : Prefix} (origin : ParsedFrom pfx eid)
    (valid : eid.Valid) (parsed : ParsedPrefix pkt off afi len pfx)
    : len = eid.bitlen ∧ afi = afToLispafi eid.family ∧ LiesAt pkt off (eid.addr.getD []) := by
  rw [← origin.family, ← origin.addr, ← origin.bitlen]
  cases parsed with
  | @ipv4 addr known bytes =>
      refine ⟨rfl, known, ?_⟩
      simp only [Prefix.addr, familyAddr, if_pos, sin_setSin]
      exact liesAt_of_slice bytes
  | ipv6 known bytes => exact ⟨rfl, known, liesAt_of_slice bytes⟩
  | unknown not4 not6 =>
      rcases valid with ⟨family, _⟩ | ⟨family, _⟩
      · cases origin.family.trans family
      · cases origin.family.trans family

/-- A probe is answered for the prefix of the record that is found. -/
theorem answeredFor_iff (valid : eid.Valid) (probe : (byteAt pkt 0).getLsbD 1 = true)
    {nonce : Bytes 8} (drawn : slice pkt 4 8 = some nonce)
    : AnsweredFor pkt nonce eid ↔ HoldsRecord pkt (requestRecord pkt) eid := by
  constructor
  · rintro ⟨pfx, etrAddr, answered, origin⟩
    have inside : Inside (processLispMapRequest pkt) := by
      rw [answered]
      exact inside_ok _
    have fits := (inside_processLispMapRequest.mp inside).2 probe
    obtain ⟨_, _, _, _, request⟩ := processLispMapRequest_probe probe (by omega)
    rw [request] at answered
    obtain ⟨parsed, parses, same⟩ := bind_eq_ok.mp answered
    simp only [pure_eq_ok, Option.some.injEq, Prod.mk.injEq] at same
    obtain ⟨rfl, _⟩ := same
    exact origin.fields valid (addrToPrefix_eq_ok.mp parses)
  · rintro ⟨maskLen, afi, lies⟩
    obtain ⟨addr, addr_eq⟩ := Option.isSome_iff_exists.mp valid.addr_isSome
    rw [addr_eq] at lies
    have fits := lies.le
    obtain ⟨nonce', etrAddr, nonce_eq, _, request⟩ := processLispMapRequest_probe probe (by omega)
    obtain rfl := Option.some.inj (drawn.symm.trans (rdBytes_eq_ok.mp nonce_eq))
    obtain ⟨parsed, parses, origin⟩ := parsedPrefix_of_liesAt addr_eq lies
    refine ⟨parsed, etrAddr, ?_, origin⟩
    have mask : requestMaskLen pkt = eid.bitlen := maskLen
    have family : requestAfi pkt = afToLispafi eid.family := afi
    rw [request, mask, family, addrToPrefix_eq_ok.mpr parses]
    rfl

end

-----------------------------------------------------------------------------------------
-- Where the record is looked for
-----------------------------------------------------------------------------------------

/-- The AFI of an address. -/
def AfiAddress.afi : AfiAddress → Nat
  | none => 0
  | ipv4 _ => lispAfiIpv4
  | ipv6 _ => lispAfiIpv6

section

variable {pkt rest : List Byte} {off : Nat}

/-- The AFI of an address that lies at an offset. -/
theorem afi_of_liesAt {address : AfiAddress} (lies : LiesAt pkt off (address.bytes ++ rest))
    : field16 pkt off = address.afi := by
  have two : 0 + 1 < (address.bytes ++ rest).length := by
    cases address <;> simp [AfiAddress.bytes] <;> omega
  have read := field16_of_liesAt lies two
  rw [Nat.add_zero] at read
  rw [read]
  cases address <;> exact be16_put16 (by decide)

/-- An ITR-RLOC with an address is skipped as a whole. -/
theorem requestLocLen_afi {address : AfiAddress} (located : address ≠ .none)
    : requestLocLen address.afi = address.bytes.length := by
  cases address with
  | none => exact absurd rfl located
  | ipv4 addr =>
      rw [AfiAddress.bytes, List.length_append, List.Vector.toList_length]
      rfl
  | ipv6 addr =>
      rw [AfiAddress.bytes, List.length_append, List.Vector.toList_length]
      rfl

/-- ITR-RLOCs with addresses are skipped as a whole; by induction on them. -/
theorem itrRlocsEnd_of_liesAt {rlocs : List AfiAddress} (located : ∀ rloc ∈ rlocs, rloc ≠ .none)
    (lies : LiesAt pkt off (rlocs.flatMap AfiAddress.bytes))
    : itrRlocsEnd pkt rlocs.length off = off + (rlocs.flatMap AfiAddress.bytes).length := by
  induction rlocs generalizing off with
  | nil => rfl
  | cons rloc rlocs ih =>
      rw [List.flatMap_cons] at lies ⊢
      have step : requestLocLen (field16 pkt off) = rloc.bytes.length := by
        rw [afi_of_liesAt lies]
        exact requestLocLen_afi (located rloc List.mem_cons_self)
      rw [List.length_cons, itrRlocsEnd, step,
        ih (fun other mem => located other (List.mem_cons_of_mem _ mem)) lies.append.2,
        List.length_append]
      omega

end

section

variable (request : ProbeRequest) (rest : List Byte)

/-- The parts of the message, one behind the other. -/
theorem ProbeRequest.liesAt
    : LiesAt (request.bytes ++ rest) 0 request.header
      ∧ LiesAt (request.bytes ++ rest) 12 request.source.bytes
      ∧ LiesAt (request.bytes ++ rest) (12 + request.source.bytes.length)
          (request.itrRlocs.flatMap AfiAddress.bytes)
      ∧ LiesAt (request.bytes ++ rest)
          (12 + request.source.bytes.length + (request.itrRlocs.flatMap AfiAddress.bytes).length)
          (request.record ++ request.eid.addr.getD []) := by
  have whole : LiesAt (request.bytes ++ rest) 0
      (request.header ++ (request.source.bytes ++ (request.itrRlocs.flatMap AfiAddress.bytes
        ++ (request.record ++ request.eid.addr.getD [])))) :=
    ⟨[], rest, by simp only [ProbeRequest.bytes, List.append_assoc, List.nil_append], rfl⟩
  obtain ⟨header, whole⟩ := whole.append
  have size : request.header.length = 12 := by simp [ProbeRequest.header]
  rw [size, Nat.zero_add] at whole
  obtain ⟨source, whole⟩ := whole.append
  obtain ⟨rlocs, record⟩ := whole.append
  exact ⟨header, source, rlocs, record⟩

/-- The place of the message's record. -/
def ProbeRequest.recordOffset (request : ProbeRequest) : Nat :=
  12 + request.source.bytes.length + (request.itrRlocs.flatMap AfiAddress.bytes).length

/-- The place that the record has when 16 more bytes are taken for a source address. -/
def ProbeRequest.lateRecordOffset (request : ProbeRequest) (rest : List Byte) : Nat :=
  itrRlocsEnd (request.bytes ++ rest) request.itrRlocs.length (12 + 2 + 16)

/-- The header's fields. -/
theorem ProbeRequest.header_fields
    : (byteAt (request.bytes ++ rest) 0).getLsbD 1 = true
      ∧ slice (request.bytes ++ rest) 4 8 = some request.nonce
      ∧ requestIrc (request.bytes ++ rest) + 1 = request.itrRlocs.length := by
  obtain ⟨header, _⟩ := request.liesAt rest
  have size : request.header.length = 12 := by simp [ProbeRequest.header]
  have flags : byteAt (request.bytes ++ rest) (0 + 0) = request.flags :=
    byteAt_of_liesAt header (by omega)
  have irc : byteAt (request.bytes ++ rest) (0 + 2) = request.irc :=
    byteAt_of_liesAt header (by omega)
  refine ⟨?_, header.append.2.slice (by simp), ?_⟩
  · rw [← Nat.add_zero 0, flags, request.probe]
  · rw [requestIrc, ← Nat.zero_add 2, irc, request.counted]

/-- The record is looked for at its place, but for a source EID without an address. -/
theorem ProbeRequest.requestRecord_eq
    : requestRecord (request.bytes ++ rest)
      = match request.source with
        | .none => request.lateRecordOffset rest
        | _ => request.recordOffset := by
  obtain ⟨_, source, rlocs, _⟩ := request.liesAt rest
  obtain ⟨_, _, count⟩ := request.header_fields rest
  have afi : sourceAfi (request.bytes ++ rest) = request.source.afi :=
    @afi_of_liesAt _ [] _ _ (by rwa [List.append_nil])
  have skipped := itrRlocsEnd_of_liesAt request.located rlocs
  rw [requestRecord, sourceEnd, count, afi]
  unfold recordOffset lateRecordOffset
  cases source_eq : request.source with
  | none => rfl
  | ipv4 addr =>
      rw [source_eq] at skipped
      simp only [AfiAddress.bytes, List.length_append, List.Vector.toList_length, put16_length]
        at skipped ⊢
      exact skipped
  | ipv6 addr =>
      rw [source_eq] at skipped
      simp only [AfiAddress.bytes, List.length_append, List.Vector.toList_length, put16_length]
        at skipped ⊢
      exact skipped

/-- The message's record carries its EID prefix. -/
theorem ProbeRequest.holdsRecord
    : HoldsRecord (request.bytes ++ rest) request.recordOffset request.eid := by
  obtain ⟨_, _, _, record⟩ := request.liesAt rest
  obtain ⟨fixed, addr⟩ := record.append
  have size : request.record.length = 4 := by simp [ProbeRequest.record]
  rw [size] at addr
  refine ⟨?_, ?_, addr⟩
  · have mask : byteAt (request.bytes ++ rest) (request.recordOffset + 1)
        = BitVec.ofNat 8 request.eid.bitlen := byteAt_of_liesAt fixed (by omega)
    have short := request.valid.bitlen_le
    rw [mask, BitVec.toNat_ofNat, Nat.mod_eq_of_lt (by omega)]
  · have afi := field16_of_liesAt fixed (show 2 + 1 < request.record.length by omega)
    exact afi.trans (be16_put16 (afToLispafi_lt _))

/-- A well-formed probe is answered for its prefix exactly when its source EID has an address,
or the record found 16 bytes too late carries the same prefix.
-/
theorem probeRequest_answered_iff
    : AnsweredFor (request.bytes ++ rest) request.nonce request.eid
      ↔ request.source ≠ .none
        ∨ HoldsRecord (request.bytes ++ rest) (request.lateRecordOffset rest) request.eid := by
  obtain ⟨probe, drawn, _⟩ := request.header_fields rest
  rw [answeredFor_iff request.valid probe drawn, request.requestRecord_eq rest]
  cases source_eq : request.source with
  | none => simp
  | ipv4 addr => exact iff_of_true (request.holdsRecord rest) (.inl nofun)
  | ipv6 addr => exact iff_of_true (request.holdsRecord rest) (.inl nofun)

end

/-- The probe for 10.0.0.0/8 without a source EID, as the encoder leaves it out. -/
def testProbe : ProbeRequest where
  flags := 0x12
  typed := by decide
  probe := by decide
  reserved := 0
  irc := 0
  recordCount := 1
  nonce := zeros 8
  source := .none
  itrRlocs := [.ipv4 (inAddr 192 0 2 1)]
  counted := by decide
  located := by simp
  recordReserved := 0
  eid := testPrefix
  valid := by decide

/-- It is not answered: its record is looked for behind its end. -/
theorem testProbe_unanswered
    : testProbe.source = .none
      ∧ processLispMapRequest testProbe.bytes = .error (.readPast 30)
      ∧ ¬ AnsweredFor testProbe.bytes testProbe.nonce testProbe.eid := by
  have faults : processLispMapRequest testProbe.bytes = .error (.readPast 30) := by decide
  refine ⟨rfl, faults, ?_⟩
  rintro ⟨pfx, etrAddr, answered, _⟩
  rw [faults] at answered
  cases answered

-----------------------------------------------------------------------------------------
-- Where the answer is sent
-----------------------------------------------------------------------------------------

/-- The socket address has the family and the address. -/
def AfiAddress.Names : AfiAddress → SockaddrStorage → Prop
  | none, _ => False
  | ipv4 addr, sa => sa.family = afInet ∧ sa.sinAddr = addr
  | ipv6 addr, sa => sa.family = afInet6 ∧ sa.sin6Addr = addr

/-- The request is answered at one of the addresses, on a UDP port. -/
def AnsweredAt (pkt : List Byte) (rlocs : List AfiAddress) : Prop :=
  ∃ pfx nonce etrAddr, processLispMapRequest pkt = .ok (some (pfx, nonce, etrAddr))
    ∧ (∃ rloc ∈ rlocs, rloc.Names etrAddr) ∧ etrAddr.port ≠ 0

/-- Filling a socket address from an address behind its AFI leaves the port as it is. -/
theorem AfiAddress.fillSockaddr_of_liesAt {pkt : List Byte} {off : Nat} {address : AfiAddress}
    (located : address ≠ .none) (lies : LiesAt pkt off address.bytes) (sa : SockaddrStorage)
    : ∃ filled, fillSockaddr (lispafiToAf address.afi) sa pkt (off + 2) = .ok filled
        ∧ address.Names filled ∧ filled.port = sa.port := by
  cases address with
  | none => exact absurd rfl located
  | ipv4 addr =>
      have bytes : rdBytes pkt (off + 2) 4 = .ok addr :=
        rdBytes_eq_ok.mpr (lies.append.2.slice (by simp))
      exact ⟨{ sa with family := afInet, sinAddr := addr },
        by rw [afi, lispafiToAf_ipv4, fillSockaddr, if_pos rfl, bytes]; rfl, ⟨rfl, rfl⟩, rfl⟩
  | ipv6 addr =>
      have bytes : rdBytes pkt (off + 2) 16 = .ok addr :=
        rdBytes_eq_ok.mpr (lies.append.2.slice (by simp))
      refine ⟨{ sa with family := afInet6, sin6Addr := addr }, ?_, ⟨rfl, rfl⟩, rfl⟩
      rw [afi, lispafiToAf_ipv6, fillSockaddr, if_neg (by decide), if_pos rfl, bytes]
      rfl

/-- A probe with a source EID is answered there, on port 0. -/
theorem ProbeRequest.answered_at_source (request : ProbeRequest) (rest : List Byte)
    (sourced : request.source ≠ .none)
    : ∃ pfx etrAddr,
        processLispMapRequest (request.bytes ++ rest)
            = .ok (some (pfx, request.nonce.toList, etrAddr))
          ∧ request.source.Names etrAddr ∧ etrAddr.port = 0 := by
  obtain ⟨_, source, _⟩ := request.liesAt rest
  obtain ⟨probe, drawn, _⟩ := request.header_fields rest
  have place : requestRecord (request.bytes ++ rest) = request.recordOffset := by
    have found := request.requestRecord_eq rest
    cases source_eq : request.source with
    | none => exact absurd source_eq sourced
    | ipv4 addr => rwa [source_eq] at found
    | ipv6 addr => rwa [source_eq] at found
  obtain ⟨maskLen, afi, lies⟩ := request.holdsRecord rest
  obtain ⟨addr, addr_eq⟩ := Option.isSome_iff_exists.mp request.valid.addr_isSome
  rw [addr_eq] at lies
  have fits : requestRecord (request.bytes ++ rest) + 4 ≤ (request.bytes ++ rest).length := by
    have within := lies.le
    rw [place]
    omega
  obtain ⟨nonce, etrAddr, nonce_eq, fill, answer⟩ := processLispMapRequest_probe probe fits
  obtain rfl := Option.some.inj (drawn.symm.trans (rdBytes_eq_ok.mp nonce_eq))
  obtain ⟨pfx, parses, _⟩ := parsedPrefix_of_liesAt addr_eq lies
  have answered : processLispMapRequest (request.bytes ++ rest)
      = .ok (some (pfx, request.nonce.toList, etrAddr)) := by
    have mask : requestMaskLen (request.bytes ++ rest) = request.eid.bitlen := by
      rw [requestMaskLen, place, maskLen]
    have family : requestAfi (request.bytes ++ rest) = afToLispafi request.eid.family := by
      rw [requestAfi, place, afi]
    rw [answer, mask, family, place, addrToPrefix_eq_ok.mpr parses]
    rfl
  have sourceAfi_eq : sourceAfi (request.bytes ++ rest) = request.source.afi :=
    @afi_of_liesAt _ [] _ _ (by rwa [List.append_nil])
  obtain ⟨filled, fill', names, port⟩ := AfiAddress.fillSockaddr_of_liesAt sourced source
    { SockaddrStorage.zero with family := ((lispafiToAf request.source.afi) % 65536).toNat }
  rw [sourceAfi_eq] at fill
  obtain rfl := Except.ok.inj (fill.symm.trans fill')
  exact ⟨pfx, etrAddr, answered, names, port⟩

/-- What is answered on port 0 is not answered where it asks. -/
theorem not_answeredAt {pkt nonce : List Byte} {rlocs : List AfiAddress} {pfx : Prefix}
    {etrAddr : SockaddrStorage}
    (answered : processLispMapRequest pkt = .ok (some (pfx, nonce, etrAddr)))
    (port : etrAddr.port = 0)
    : ¬ AnsweredAt pkt rlocs := by
  rintro ⟨_, _, other, answered', _, open_⟩
  have same := Except.ok.inj (answered.symm.trans answered')
  simp only [Option.some.injEq, Prod.mk.injEq] at same
  rw [← same.2.2] at open_
  exact open_ port

/-- A well-formed probe is answered at its source EID, on port 0, and so never where it asks. -/
theorem probeRequest_misses (request : ProbeRequest) (rest : List Byte)
    (sourced : request.source ≠ .none)
    : (∃ pfx etrAddr,
        processLispMapRequest (request.bytes ++ rest)
            = .ok (some (pfx, request.nonce.toList, etrAddr))
          ∧ request.source.Names etrAddr ∧ etrAddr.port = 0)
      ∧ ¬ AnsweredAt (request.bytes ++ rest) request.itrRlocs := by
  obtain ⟨pfx, etrAddr, answered, names, port⟩ := request.answered_at_source rest sourced
  exact ⟨⟨pfx, etrAddr, answered, names, port⟩, not_answeredAt answered port⟩

/-- The same probe from the source EID 192.0.2.2. -/
def testSourcedProbe : ProbeRequest := { testProbe with source := .ipv4 (inAddr 192 0 2 2) }

theorem testSourcedProbe_sourced : testSourcedProbe.source ≠ .none := by
  intro none
  cases none

/-- Witness: the answer goes to 192.0.2.2, port 0. -/
theorem testSourcedProbe_unasked
    : ¬ AnsweredAt (testSourcedProbe.bytes ++ []) testSourcedProbe.itrRlocs :=
  (probeRequest_misses testSourcedProbe [] testSourcedProbe_sourced).2

/-- It asks for an answer at 192.0.2.1. -/
theorem testSourcedProbe_misses
    : ¬ ∀ (request : ProbeRequest) (rest : List Byte), request.source ≠ .none
        → AnsweredAt (request.bytes ++ rest) request.itrRlocs := by
  intro asked
  obtain ⟨pfx, etrAddr, answered, _, port⟩ :=
    testSourcedProbe.answered_at_source [] testSourcedProbe_sourced
  exact not_answeredAt answered port (asked testSourcedProbe [] testSourcedProbe_sourced)

end Lixy
