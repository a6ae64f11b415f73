import Lixy.Messages.Layouts
import Lixy.Messages.RecordReturns

/-! Decoding undoes encoding: what a Map-Reply parser reads of the parts that the encoders
write, and the whole way from a configured locator to the map table.
-/

namespace Lixy

open ByteStrings

-----------------------------------------------------------------------------------------
-- Families and AFIs
-----------------------------------------------------------------------------------------

section

variable {family : Nat} {sinAddr : Bytes 4} {sin6Addr : Bytes 16} {addr : List Byte}

/-- An address is the four bytes of AF_INET or the sixteen of AF_INET6. -/
theorem familyAddr_eq_some
    : familyAddr family sinAddr sin6Addr = some addr
      ↔ family = afInet ∧ addr = sinAddr.toList ∨ family = afInet6 ∧ addr = sin6Addr.toList := by
  unfold familyAddr
  split
  · next inet => simp [inet, afInet, afInet6, eq_comm]
  · next other =>
      split
      · next inet6 => simp [inet6, afInet, afInet6, eq_comm]
      · next neither => simp [other, neither]

/-- The length macros leave just the room that the address takes. -/
theorem familyAddr_lengths (known : familyAddr family sinAddr sin6Addr = some addr)
    : addrLen (afToLispafi family) = addr.length
      ∧ lispLocatorPktLen (afToLispafi family) = sizeofLispLocator + addr.length
      ∧ lispRecordPktLen (afToLispafi family) = sizeofLispRecord + addr.length
      ∧ requestLocLen (afToLispafi family) = 2 + addr.length := by
  rcases familyAddr_eq_some.mp known with ⟨rfl, rfl⟩ | ⟨rfl, rfl⟩
  · simp [afToLispafi, addrLen, lispLocatorPktLen, lispRecordPktLen, requestLocLen]
  · simp [afToLispafi, addrLen, lispLocatorPktLen, lispRecordPktLen, requestLocLen, afInet,
      afInet6, lispAfiIpv4, lispAfiIpv6]

/-- The AFI of a known family leads back to it. -/
theorem lispafiToAf_afToLispafi (known : familyAddr family sinAddr sin6Addr = some addr)
    : lispafiToAf (afToLispafi family) = (family : Nat) := by
  rcases familyAddr_eq_some.mp known with ⟨rfl, _⟩ | ⟨rfl, _⟩ <;> rfl

end

theorem afToLispafi_lt (af : Nat) : afToLispafi af < 65536 := by
  unfold afToLispafi
  split <;> decide

-----------------------------------------------------------------------------------------
-- One locator
-----------------------------------------------------------------------------------------

/-- The decoded locator carries the configured one's address and parameters, and the data
port.
-/
structure DecodedFrom (decoded loc : Locator) : Prop where
  family : decoded.locAddr.family = loc.locAddr.family
  addr : decoded.locAddr.addr = loc.locAddr.addr
  port : decoded.locAddr.port = lispDataPort
  priority : decoded.priority = loc.priority
  weight : decoded.weight = loc.weight
  mPriority : decoded.mPriority = loc.mPriority
  mWeight : decoded.mWeight = loc.mWeight

section

variable {pkt : List Byte} {off : Nat} {loc : Locator}

/-- The AFI of a locator that lies at an offset. -/
theorem locatorAfi_of_liesAt (lies : LiesAt pkt off (locatorItem loc))
    : locatorAfi pkt off = afToLispafi loc.locAddr.family := by
  have fixed : LiesAt pkt off (lispLocator loc) := lies.append.1
  rw [locatorAfi, field16_of_liesAt fixed (by rw [lispLocator_length]; decide)]
  exact be16_put16 (afToLispafi_lt _)

/-- A locator that lies at an offset ends where its length macro says. -/
theorem locatorItem_length (known : loc.Known)
    : lispLocatorPktLen (afToLispafi loc.locAddr.family) = (locatorItem loc).length := by
  obtain ⟨addr, addr_eq⟩ := Option.isSome_iff_exists.mp known
  rw [(familyAddr_lengths addr_eq).2.1, locatorItem, addr_eq]
  simp

/-- Filling a socket address from an address that lies at an offset. -/
theorem fillSockaddr_of_liesAt {sa origin : SockaddrStorage} {addr : List Byte}
    (known : origin.addr = some addr) (lies : LiesAt pkt off addr)
    : ∃ filled, fillSockaddr (lispafiToAf (afToLispafi origin.family)) sa pkt off = .ok filled
        ∧ filled.family = origin.family ∧ filled.addr = some addr := by
  rw [lispafiToAf_afToLispafi known]
  rcases familyAddr_eq_some.mp known with ⟨inet, rfl⟩ | ⟨inet6, rfl⟩
  · rw [inet]
    have bytes : rdBytes pkt off 4 = .ok origin.sinAddr :=
      rdBytes_eq_ok.mpr (lies.slice (by simp))
    exact ⟨{ sa with family := afInet, sinAddr := origin.sinAddr },
      by simp [fillSockaddr, bytes], rfl, by simp [SockaddrStorage.addr, familyAddr]⟩
  · rw [inet6]
    have bytes : rdBytes pkt off 16 = .ok origin.sin6Addr :=
      rdBytes_eq_ok.mpr (lies.slice (by simp))
    exact ⟨{ sa with family := afInet6, sin6Addr := origin.sin6Addr },
      by simp [fillSockaddr, bytes, afInet, afInet6], rfl,
      by simp [SockaddrStorage.addr, familyAddr, afInet, afInet6]⟩

/-- Decoding an encoded locator. -/
theorem lispLocatorPktToLocator_of_liesAt (known : loc.Known)
    (lies : LiesAt pkt off (locatorItem loc))
    : ∃ decoded, lispLocatorPktToLocator pkt off = .ok decoded ∧ DecodedFrom decoded loc := by
  obtain ⟨addr, addr_eq⟩ := Option.isSome_iff_exists.mp known
  rw [locatorItem, addr_eq] at lies
  obtain ⟨fixed, address⟩ := lies.append
  obtain ⟨filled, fill, family, same⟩ :=
    @fillSockaddr_of_liesAt pkt _ .zero _ _ addr_eq address
  rw [lispLocator_length] at fill
  have afi : rd16 pkt (off + 6) = .ok (afToLispafi loc.locAddr.family) := by
    rw [rd16_eq_ok, field16_of_liesAt fixed (by rw [lispLocator_length]; decide)]
    have := fixed.le
    exact ⟨by simp at this; omega, (be16_put16 (afToLispafi_lt _)).symm⟩
  have byte (i : Nat) (lt : i < 4) : rd pkt (off + i) = .ok ((lispLocator loc).getD i 0) := by
    have lt' : i < (lispLocator loc).length :=
      Nat.lt_of_lt_of_le lt (by rw [lispLocator_length]; decide)
    rw [rd_eq_ok, byteAt_of_liesAt fixed lt']
    have := fixed.le
    exact ⟨by omega, rfl⟩
  have first := byte 0 (by decide)
  rw [Nat.add_zero] at first
  refine ⟨⟨{ filled with port := lispDataPort }, loc.priority, loc.weight, loc.mPriority,
    loc.mWeight⟩, ?_, ⟨family, same.trans addr_eq.symm, rfl, rfl, rfl, rfl, rfl⟩⟩
  simp only [lispLocatorPktToLocator, afi, bind, Except.bind, fill, first, byte 1 (by decide),
    byte 2 (by decide), byte 3 (by decide), pure, Except.pure]
  rfl

end

-----------------------------------------------------------------------------------------
-- The locators and their record
-----------------------------------------------------------------------------------------

section

variable {pkt : List Byte} {off : Nat} {locs : List Locator}

/-- The locators lie one behind the other, where the length macro looks for them; by induction
on the locators.
-/
theorem eachLocator_of_liesAt (known : ∀ loc ∈ locs, loc.Known)
    (lies : LiesAt pkt off (locs.flatMap locatorItem))
    : EachLocator pkt (fun lisploc => ∃ loc ∈ locs, LiesAt pkt lisploc (locatorItem loc))
        locs.length off
      ∧ locatorsEnd pkt locs.length off = off + (locs.flatMap locatorItem).length := by
  induction locs generalizing off with
  | nil => exact ⟨trivial, rfl⟩
  | cons loc rest ih =>
      rw [List.flatMap_cons] at lies ⊢
      obtain ⟨here, behind⟩ := lies.append
      have step
          : off + lispLocatorPktLen (locatorAfi pkt off) = off + (locatorItem loc).length := by
        rw [locatorAfi_of_liesAt here, locatorItem_length (known loc (by simp))]
      obtain ⟨each, fin⟩ := ih (fun other mem => known other (by simp [mem])) behind
      constructor
      · refine ⟨⟨loc, by simp, here⟩, ?_⟩
        rw [step]
        refine each.imp ?_
        rintro _ ⟨other, mem, there⟩
        exact ⟨other, by simp [mem], there⟩
      · simp only [List.length_cons, locatorsEnd, step, fin, List.length_append]
        omega

end

/-- The prefix that a parser makes of a record has the family, length and address of the one
that went in.
-/
structure ParsedFrom (parsed pfx : Prefix) : Prop where
  family : parsed.family = pfx.family
  bitlen : parsed.bitlen = pfx.bitlen
  addr : parsed.addr = pfx.addr

section

variable {pkt : List Byte} {record : Nat} {locTuple : ListT Locator} {pfx : Prefix}

/-- An address that lies at an offset is parsed. -/
theorem parsedPrefix_of_liesAt {off : Nat} {addr : List Byte} (known : pfx.addr = some addr)
    (lies : LiesAt pkt off addr)
    : ∃ parsed, ParsedPrefix pkt off (afToLispafi pfx.family) pfx.bitlen parsed
        ∧ ParsedFrom parsed pfx := by
  rcases familyAddr_eq_some.mp known with ⟨inet, rfl⟩ | ⟨inet6, rfl⟩
  · rw [inet]
    refine ⟨_, .ipv4 rfl (lies.slice (by simp)), inet.symm, rfl, ?_⟩
    rw [known]
    change some (sin (setSin (sin pfx.add) (zeros 16))).toList = _
    rw [sin_setSin]
  · rw [inet6]
    refine ⟨_, .ipv6 rfl (lies.slice (by simp)), inet6.symm, rfl, ?_⟩
    rw [known]
    rfl

/-- The fields of a record that lies at an offset. -/
theorem record_of_liesAt (valid : pfx.Valid)
    (lies : LiesAt pkt record (recordItem locTuple pfx))
    : record + 12 ≤ pkt.length
      ∧ recordLocatorCount pkt record = locTuple.count.toNat % 256
      ∧ recordLocators pkt record = record + (recordItem locTuple pfx).length
      ∧ rd32 pkt record = .ok (BitVec.ofNat 32 lispDefaultRecordTtl)
      ∧ ∃ parsed, recordPrefix pkt record = .ok parsed ∧ ParsedFrom parsed pfx := by
  obtain ⟨addr, addr_eq⟩ := Option.isSome_iff_exists.mp valid.addr_isSome
  have item : recordItem locTuple pfx = lispRecord locTuple pfx ++ addr := by
    simp [recordItem, addr_eq]
  rw [item] at lies ⊢
  obtain ⟨fixed, address⟩ := lies.append
  have inside : record + 12 ≤ pkt.length := fixed.le
  have byte {i : Nat} (lt : i < 12)
      : byteAt pkt (record + i) = (lispRecord locTuple pfx).getD i 0 :=
    byteAt_of_liesAt fixed lt
  have first : byteAt pkt record = 0 := byte (i := 0) (by decide)
  have afi : recordAfi pkt record = afToLispafi pfx.family := by
    rw [recordAfi, field16_of_liesAt fixed (by rw [lispRecord_length]; decide)]
    exact be16_put16 (afToLispafi_lt _)
  have mask : recordMaskLen pkt record = pfx.bitlen := by
    rw [recordMaskLen, byte (by decide)]
    change (BitVec.ofNat 8 pfx.bitlen).toNat = pfx.bitlen
    have := valid.bitlen_le
    rw [BitVec.toNat_ofNat, Nat.mod_eq_of_lt (by omega)]
  refine ⟨inside, ?_, ?_, ?_, ?_⟩
  · rw [recordLocatorCount, byte (by decide)]
    change (BitVec.ofNat 8 locTuple.count.toNat).toNat = _
    rw [BitVec.toNat_ofNat]
  · rw [recordLocators, afi, (familyAddr_lengths addr_eq).2.2.1, List.length_append,
      lispRecord_length]
  · simp only [rd32, bind_eq_ok, rd_eq_ok, pure_eq_ok]
    refine ⟨_, ⟨by omega, rfl⟩, _, ⟨by omega, rfl⟩, _, ⟨by omega, rfl⟩, _, ⟨by omega, rfl⟩, ?_⟩
    rw [first, byte (by decide), byte (by decide), byte (by decide)]
    exact (by decide : be32 0 0 0 10 = BitVec.ofNat 32 lispDefaultRecordTtl)
  · rw [lispRecord_length] at address
    obtain ⟨parsed, parses, origin⟩ := parsedPrefix_of_liesAt addr_eq address
    refine ⟨parsed, recordPrefix_eq_ok.mpr ⟨inside, ?_⟩, origin⟩
    rw [afi, mask]
    exact parses

end

-----------------------------------------------------------------------------------------
-- The whole way
-----------------------------------------------------------------------------------------

/-- The copy that the table keeps comes from the same prefix. -/
theorem ParsedFrom.copy {parsed pfx copy : Prefix} (h : ParsedFrom parsed pfx)
    (kept : refPrefix parsed = some copy)
    : ParsedFrom copy pfx := by
  have same : copy.family = parsed.family ∧ copy.bitlen = parsed.bitlen
      ∧ copy.addr = parsed.addr := by
    unfold refPrefix newPrefix at kept
    split at kept
    · split at kept
      · next inet =>
          obtain rfl := Option.some.inj kept
          refine ⟨rfl, rfl, ?_⟩
          simp only [Prefix.addr, familyAddr, if_pos inet, sin_setSin]
      · split at kept
        · obtain rfl := Option.some.inj kept
          exact ⟨rfl, rfl, rfl⟩
        · cases kept
    · obtain rfl := Option.some.inj kept
      exact ⟨rfl, rfl, rfl⟩
  exact ⟨same.1.trans h.family, same.2.1.trans h.bitlen, same.2.2.trans h.addr⟩

section

variable {locs : List Locator} {pfx : Prefix}

/-- Where the parts of a Map-Reply lie. -/
theorem mapReplyMessage_liesAt (locTuple : ListT Locator) (pfx : Prefix) (nonce : Bytes 8)
    : LiesAt (mapReplyMessage locTuple pfx nonce) 0 (mapReplyHeader nonce)
      ∧ LiesAt (mapReplyMessage locTuple pfx nonce) 12 (recordItem locTuple pfx)
      ∧ LiesAt (mapReplyMessage locTuple pfx nonce) (12 + (recordItem locTuple pfx).length)
          (locTuple.nodes.flatMap locatorItem) := by
  have whole : LiesAt (mapReplyMessage locTuple pfx nonce) 0
      (mapReplyHeader nonce ++ (recordItem locTuple pfx ++ locTuple.nodes.flatMap locatorItem)) :=
    ⟨[], [], by simp [mapReplyMessage], rfl⟩
  obtain ⟨header, behind⟩ := whole.append
  rw [mapReplyHeader_length, Nat.zero_add] at behind
  exact ⟨header, behind.append⟩

/-- The record of an encoded Map-Reply, decoded where nothing is stored, puts one ACTIVE entry
for the prefix with one of the locators.
-/
theorem mapReplyRecord_of_message {lisp : Lisp} (nonce : Bytes 8) (valid : pfx.Valid)
    (nonempty : locs ≠ []) (few : locs.length ≤ 255) (known : ∀ loc ∈ locs, loc.Known)
    (ok : TableOk lisp.rib)
    (clean : lisp.rib.NoOrphans) (empty : lisp.rib.entries = [])
    : ∃ lisp' more stored node loc,
        mapReplyRecord (mapReplyMessage (listOf locs) pfx nonce) 12 lisp
          = .ok (lisp', (mapReplyMessage (listOf locs) pfx nonce).length, more)
        ∧ (∀ e, e ∈ lisp'.rib.entries ↔ e = (stored, node)) ∧ ParsedFrom stored pfx
        ∧ node.state = .active ∧ node.ttl = BitVec.ofNat 32 (60 * lispDefaultRecordTtl)
        ∧ loc ∈ locs ∧ DecodedFrom node.locator loc := by
  obtain ⟨_, record, items⟩ := mapReplyMessage_liesAt (listOf locs) pfx nonce
  obtain ⟨inside, count, locators, ttl, parsed, parses, origin⟩ := record_of_liesAt valid record
  have total : (mapReplyMessage (listOf locs) pfx nonce).length
      = 12 + (recordItem (listOf locs) pfx).length + (locs.flatMap locatorItem).length := by
    simp [mapReplyMessage, Nat.add_assoc]
  generalize mapReplyMessage (listOf locs) pfx nonce = pkt at *
  rw [listOf_nodes] at items
  have count_eq : recordLocatorCount pkt 12 = locs.length := by
    rw [count, listOf_count, BitVec.toNat_ofNat]
    omega
  have located : recordLocatorCount pkt 12 ≠ 0 := by
    rw [count_eq]
    exact fun none => nonempty (List.length_eq_zero_iff.mp none)
  obtain ⟨each, fin⟩ := eachLocator_of_liesAt known (locators ▸ items)
  rw [← count_eq] at each fin
  have whole : recordEnd pkt 12 = pkt.length := by
    rw [recordEnd, fin, locators, total]
  obtain ⟨loc, mem, lies⟩ := each.recordSelected located
  obtain ⟨decoded, decodes, decodedFrom⟩ := lispLocatorPktToLocator_of_liesAt (known loc mem) lies
  have short : parsed.bitlen ≤ 128 := by
    rw [origin.bitlen]
    exact valid.bitlen_le
  have missing (key : List Bool) : lisp.rib.store key = none := by
    cases stored : lisp.rib.store key with
    | none => rfl
    | some e =>
        have := (ok.store_eq_some_iff.mp stored).1
        rw [empty] at this
        cases this
  obtain ⟨lisp', next, more, done⟩ := mapReplyRecord_total ok clean
    (show RecordInside pkt 12 from Nat.le_of_eq whole) parses (fun zero => absurd zero located)
    (fun _ => short)
  obtain ⟨rfl, effect⟩ := mapReplyRecord_effect done
  rw [whole] at done
  cases effect with
  | ignored zero _ _ => exact absurd zero located
  | denied zero _ _ _ _ => exact absurd zero located
  | asked zero _ _ => exact absurd zero located
  | refreshed _ parses' search =>
      obtain rfl := Except.ok.inj (parses.symm.trans parses')
      rcases searchMapnode_spec ok short with ⟨_, missed⟩ | ⟨e, _, found, _⟩
      · cases missed.symm.trans search
      · cases (missing _).symm.trans (LongestPrefix.best_eq_some_iff.mp found).stored
  | @learned parsed' recordTtl locator rib stored _ parses' search ttl' decodes' update =>
      obtain rfl := Except.ok.inj (parses.symm.trans parses')
      obtain rfl := Except.ok.inj (ttl.symm.trans ttl')
      obtain rfl := Except.ok.inj (decodes.symm.trans decodes')
      have rib_eq
          : (if stored then addRouteToTun parsed { lisp with rib } else { lisp with rib }).rib
            = rib := by
        split <;> simp
      have storable := (recordPrefix_eq_ok.mp parses).2.storable short
      obtain ⟨ok', _, ⟨_, _, e, there, _⟩ | ⟨_, unknown, _⟩ | ⟨e, _, node, puts, store⟩⟩ :=
        updateMapnode_puts ∅ ok storable update
      · cases (missing _).symm.trans there
      · have copies : (refPrefix parsed).isSome :=
          refPrefix_isSome (by rw [origin.family]; exact valid.imp And.left And.left)
        rw [unknown] at copies
        cases copies
      · have learned : e.2.ttl = BitVec.ofNat 32 lispDefaultRecordTtl * 60 := by
          rw [node]
          rfl
        refine ⟨_, _, e.1, e.2, loc, done, ?_, origin.copy (puts.fresh (missing _)),
          by rw [node]; rfl, learned.trans (by decide), mem, by rw [node]; exact decodedFrom⟩
        intro other
        rw [rib_eq]
        constructor
        · intro there
          have held := ok'.store_self there
          by_cases key : other.1.key = e.1.key
          · rw [store, key, LongestPrefix.insert_self] at held
            exact (Option.some.inj held).symm
          · rw [store, LongestPrefix.insert_of_ne _ _ key, missing] at held
            cases held
        · rintro rfl
          have held : rib.store e.1.key = some e := by rw [store, LongestPrefix.insert_self]
          exact (ok'.store_eq_some_iff.mp held).1

end

/-- Decoding undoes encoding: the Map-Reply for a prefix and a list of locators, decoded where
nothing is stored, leaves one entry, ACTIVE, at that prefix, with one of the locators; what is
decoded is as long as what was encoded.
Witness: each locator lies where the decoder's running offset looks for it.
-/
theorem mapReply_round_trip {buf : List Byte} {locs : List Locator} {pfx : Prefix}
    {lisp : Lisp} (nonce : Bytes 8) (valid : pfx.Valid) (nonempty : locs ≠ [])
    (few : locs.length ≤ 255) (known : ∀ loc ∈ locs, loc.Known)
    (fits : (mapReplyMessage (listOf locs) pfx nonce).length ≤ buf.length)
    (ok : TableOk lisp.rib) (clean : lisp.rib.NoOrphans) (empty : lisp.rib.entries = [])
    : ∃ out n lisp' stored node loc,
        setLispMapReply buf (listOf locs) pfx nonce = .ok (some (out, n))
        ∧ processLispMapReply (out.take n) lisp = .ok (lisp', n)
        ∧ (∀ e, e ∈ lisp'.rib.entries ↔ e = (stored, node)) ∧ ParsedFrom stored pfx
        ∧ node.state = .active ∧ node.ttl = BitVec.ofNat 32 (60 * lispDefaultRecordTtl)
        ∧ loc ∈ locs ∧ DecodedFrom node.locator loc := by
  obtain ⟨lisp', more, stored, node, loc, record, entry⟩ :=
    mapReplyRecord_of_message nonce valid nonempty few known ok clean empty
  have encoded := setLispMapReply_eq (by simpa using known) fits
  obtain ⟨header, _⟩ := mapReplyMessage_liesAt (listOf locs) pfx nonce
  refine ⟨_, _, lisp', stored, node, loc, encoded, ?_, entry⟩
  have count : rd (mapReplyMessage (listOf locs) pfx nonce) 3 = .ok 1 := by
    have byte : byteAt (mapReplyMessage (listOf locs) pfx nonce) (0 + 3) = 1 :=
      byteAt_of_liesAt header (by rw [mapReplyHeader_length]; decide)
    rw [Nat.zero_add] at byte
    rw [rd_eq_ok, byte]
    have := header.le
    rw [mapReplyHeader_length] at this
    exact ⟨by omega, rfl⟩
  rw [take_overlay]
  simp only [processLispMapReply, count, bind, Except.bind]
  change mapReplyRecords _ 1 12 lisp = _
  simp only [mapReplyRecords, record, bind, Except.bind]
  cases more <;> rfl

/-- The locator 192.0.2.1 with priority 1 and weight 100. -/
def testLocator : Locator :=
  { Locator.zero with
    locAddr := { SockaddrStorage.zero with family := afInet, sinAddr := inAddr 192 0 2 1 }
    priority := 1
    weight := 100 }

/-- The prefix 10.0.0.0/8. -/
def testPrefix : Prefix :=
  { family := afInet, bitlen := 8, refCount := 0, add := setSin (inAddr 10 0 0 0) (zeros 16) }

/-- The locator 2001:db8::1 with priority 2. -/
def testLocator6 : Locator :=
  { Locator.zero with
    locAddr :=
      { SockaddrStorage.zero with
        family := afInet6
        sin6Addr := ⟨[0x20, 0x01, 0x0d, 0xb8, 0, 0, 0, 0, 0, 0, 0, 0, 0, 0, 0, 1], rfl⟩ }
    priority := 2 }

/-- Two locators of different families. -/
def testLocators : List Locator := [testLocator, testLocator6]

theorem testLocators_known : ∀ loc ∈ testLocators, loc.Known := by decide

/-- The Map-Reply for 10.0.0.0/8 with two locators, sent from a buffer full of other bytes. -/
theorem testPrefix_round_trip
    : ∃ out n lisp' stored node loc,
        setLispMapReply (List.replicate 100 0xee) (listOf testLocators) testPrefix (zeros 8)
          = .ok (some (out, n))
        ∧ processLispMapReply (out.take n) Lisp.start = .ok (lisp', n)
        ∧ (stored, node) ∈ lisp'.rib.entries ∧ node.state = .active
        ∧ loc ∈ testLocators ∧ DecodedFrom node.locator loc := by
  have fits : (mapReplyMessage (listOf testLocators) testPrefix (zeros 8)).length
      ≤ (List.replicate 100 (0xee : Byte)).length := by decide
  obtain ⟨out, n, lisp', stored, node, loc, encoded, decoded, entry, _, active, _, mem, same⟩ :=
    mapReply_round_trip (zeros 8) (by decide) (by decide) (by decide) testLocators_known fits
      tableOk_createMaptable (show Lisp.start.rib.NoOrphans from nofun) rfl
  exact ⟨out, n, lisp', stored, node, loc, encoded, decoded, (entry _).mpr rfl, active, mem, same⟩

end Lixy
