import Lixy.Messages.ReplyRoundTrip
import Mathlib.Algebra.GroupWithZero.Nat

/-! The Map-Register of lisp.h, field by field, and that `set_lisp_map_register` emits it with
the digest of the message whose authentication field is zero.
-/

namespace Lixy

open ByteStrings

-----------------------------------------------------------------------------------------
-- The format
-----------------------------------------------------------------------------------------

/-- A register header with one record and an SHA-1 digest under key id 1. -/
structure RegisterHeader (header : List Byte) (nonce : Bytes 8) (auth : Bytes shaDigestLength)
    : Prop where
  length : header.length = 36
  type : (byteAt header 0 >>> 4).toNat = lispMapRgst
  proxyReply : (byteAt header 0).getLsbD 3 = true
  recordCount : byteAt header 3 = 1
  nonce : slice header 4 8 = some nonce
  keyId : field16 header 12 = 1
  authDataLen : field16 header 14 = shaDigestLength
  authData : slice header 16 shaDigestLength = some auth

/-- A record that carries a prefix and announces a number of locators. -/
structure RecordOf (record : List Byte) (locatorCount : Nat) (pfx : Prefix) : Prop where
  ttl : slice record 0 4 = some ⟨put32 lispDefaultRecordTtl, rfl⟩
  locatorCount : (byteAt record 4).toNat = locatorCount
  maskLen : (byteAt record 5).toNat = pfx.bitlen
  afi : field16 record 10 = afToLispafi pfx.family
  addr : some (record.drop 12) = pfx.addr

/-- A locator of a message with the parameters and the address of a configured one. -/
structure LocatorOf (item : List Byte) (loc : Locator) : Prop where
  priority : byteAt item 0 = loc.priority
  weight : byteAt item 1 = loc.weight
  mPriority : byteAt item 2 = loc.mPriority
  mWeight : byteAt item 3 = loc.mWeight
  flags : byteAt item 4 = 0 ∧ byteAt item 5 = 5
  afi : field16 item 6 = afToLispafi loc.locAddr.family
  addr : some (item.drop 8) = loc.locAddr.addr

/-- A Map-Register for a prefix, with every locator in the order of the list. -/
def RegisterFormat (msg : List Byte) (nonce : Bytes 8) (auth : Bytes shaDigestLength)
    (locs : List Locator) (pfx : Prefix) : Prop :=
  ∃ header record items,
    msg = header ++ record ++ items.flatten
      ∧ RegisterHeader header nonce auth
      ∧ RecordOf record locs.length pfx
      ∧ List.Forall₂ LocatorOf items locs

/-- The message with its authentication field set to zero. -/
def blankAuth (msg : List Byte) : List Byte :=
  msg.take 16 ++ List.replicate shaDigestLength 0 ++ msg.drop (16 + shaDigestLength)

/-- The size of a Map-Register: the sum of its parts. -/
def registerSize (locs : List Locator) (pfx : Prefix) : Nat :=
  sizeofLispMapRegister + (sizeofLispRecord + addrLen (afToLispafi pfx.family))
    + (locs.map fun loc => sizeofLispLocator + addrLen (afToLispafi loc.locAddr.family)).sum

-----------------------------------------------------------------------------------------
-- The encoder's message
-----------------------------------------------------------------------------------------

section

variable {locs : List Locator} {pfx : Prefix} {nonce : Bytes 8} {auth : Bytes shaDigestLength}

theorem mapRegisterHeader_format : RegisterHeader (mapRegisterHeader nonce auth) nonce auth := by
  have fields : mapRegisterHeader nonce auth
      = [0x38, 0, 0, 1] ++ nonce.toList ++ ([0, 1, 0, 20] ++ auth.toList) := by
    rw [mapRegisterHeader, List.append_assoc, List.append_assoc]
    rfl
  have lies : LiesAt (mapRegisterHeader nonce auth) 0
      ([0x38, 0, 0, 1] ++ (nonce.toList ++ ([0, 1, 0, 20] ++ auth.toList))) :=
    ⟨[], [], by rw [fields, List.append_assoc, List.nil_append, List.append_nil], rfl⟩
  obtain ⟨start, behind⟩ := lies.append
  obtain ⟨drawn, behind⟩ := behind.append
  rw [List.Vector.toList_length] at behind
  obtain ⟨key, digest⟩ := behind.append
  have first : byteAt (mapRegisterHeader nonce auth) 0 = 0x38 :=
    byteAt_of_liesAt (i := 0) start (by decide)
  exact {
    length := mapRegisterHeader_length _ _
    type := by rw [first]; decide
    proxyReply := by rw [first]; decide
    recordCount := byteAt_of_liesAt (i := 3) start (by decide)
    nonce := drawn.slice _
    keyId := field16_of_liesAt (i := 0) key (by decide)
    authDataLen := field16_of_liesAt (i := 2) key (by decide)
    authData := digest.slice _ }

theorem recordItem_format (valid : pfx.Valid) (few : locs.length ≤ 255)
    : RecordOf (recordItem (listOf locs) pfx) locs.length pfx := by
  obtain ⟨addr, addr_eq⟩ := Option.isSome_iff_exists.mp valid.addr_isSome
  have item : recordItem (listOf locs) pfx = lispRecord (listOf locs) pfx ++ addr := by
    simp [recordItem, addr_eq]
  have count : ((listOf locs).count.toNat) = locs.length := by
    rw [listOf_count, BitVec.toNat_ofNat, Nat.mod_eq_of_lt (by omega)]
  have short := valid.bitlen_le
  rw [item]
  exact {
    ttl := rfl
    locatorCount := by
      change (BitVec.ofNat 8 (listOf locs).count.toNat).toNat = locs.length
      rw [count, BitVec.toNat_ofNat, Nat.mod_eq_of_lt (by omega)]
    maskLen := by
      change (BitVec.ofNat 8 pfx.bitlen).toNat = pfx.bitlen
      rw [BitVec.toNat_ofNat, Nat.mod_eq_of_lt (by omega)]
    afi := be16_put16 (afToLispafi_lt _)
    addr := by
      rw [List.drop_left' (lispRecord_length _ _), addr_eq] }

theorem locatorItem_format {loc : Locator} (known : loc.Known)
    : LocatorOf (locatorItem loc) loc := by
  obtain ⟨addr, addr_eq⟩ := Option.isSome_iff_exists.mp known
  have item : locatorItem loc = lispLocator loc ++ addr := by simp [locatorItem, addr_eq]
  rw [item]
  exact {
    priority := rfl
    weight := rfl
    mPriority := rfl
    mWeight := rfl
    flags := ⟨rfl, rfl⟩
    afi := be16_put16 (afToLispafi_lt _)
    addr := by rw [List.drop_left' (lispLocator_length _), addr_eq] }

/-- The encoder's message is in the format. -/
theorem mapRegisterMessage_format (valid : pfx.Valid) (known : ∀ loc ∈ locs, loc.Known)
    (few : locs.length ≤ 255)
    : RegisterFormat (mapRegisterMessage (listOf locs) pfx nonce auth) nonce auth locs pfx := by
  refine ⟨_, _, locs.map locatorItem, ?_, mapRegisterHeader_format, recordItem_format valid few, ?_⟩
  · rw [mapRegisterMessage, listOf_nodes, List.flatMap_def]
  · rw [List.forall₂_map_left_iff, List.forall₂_same]
    exact fun loc mem => locatorItem_format (known loc mem)

theorem mapRegisterMessage_length (valid : pfx.Valid) (known : ∀ loc ∈ locs, loc.Known)
    : (mapRegisterMessage (listOf locs) pfx nonce auth).length = registerSize locs pfx := by
  obtain ⟨addr, addr_eq⟩ := Option.isSome_iff_exists.mp valid.addr_isSome
  have record : (recordItem (listOf locs) pfx).length
      = sizeofLispRecord + addrLen (afToLispafi pfx.family) := by
    rw [recordItem, List.length_append, lispRecord_length, addr_eq, (familyAddr_lengths addr_eq).1]
    rfl
  have items : (locs.flatMap locatorItem).length
      = (locs.map fun loc => sizeofLispLocator + addrLen (afToLispafi loc.locAddr.family)).sum := by
    rw [List.length_flatMap]
    congr 1
    apply List.map_congr_left
    intro loc mem
    obtain ⟨addr, addr_eq⟩ := Option.isSome_iff_exists.mp (known loc mem)
    rw [← locatorItem_length (known loc mem), (familyAddr_lengths addr_eq).2.1,
      (familyAddr_lengths addr_eq).1]
  rw [mapRegisterMessage, List.length_append, List.length_append, mapRegisterHeader_length, record,
    listOf_nodes, items, registerSize]

/-- Setting the authentication field to zero. -/
theorem blankAuth_mapRegisterMessage
    : blankAuth (mapRegisterMessage (listOf locs) pfx nonce auth)
      = mapRegisterMessage (listOf locs) pfx nonce (zeros shaDigestLength) := by
  have parts (auth : Bytes shaDigestLength)
      : mapRegisterMessage (listOf locs) pfx nonce auth
        = ([0x38, 0, 0, 1] ++ nonce.toList ++ put16 1 ++ put16 shaDigestLength)
          ++ (auth.toList ++ (recordItem (listOf locs) pfx ++ locs.flatMap locatorItem)) := by
    simp only [mapRegisterMessage, mapRegisterHeader, listOf_nodes, List.append_assoc]
    rfl
  have start
      : ([0x38, 0, 0, 1] ++ nonce.toList ++ put16 1 ++ put16 shaDigestLength).length = 16 := by
    simp
  rw [blankAuth, parts, parts, List.take_left' start, ← List.drop_drop, List.drop_left' start,
    List.drop_left' (by simp), zeros_toList, List.append_assoc]

/-- What the encoder returns is in the format, with the digest of the message. -/
theorem setLispMapRegister_format (hmacSha1 : List Byte → List Byte → Bytes shaDigestLength)
    {buf key : List Byte} (nonce : Bytes 8) (valid : pfx.Valid)
    (known : ∀ loc ∈ locs, loc.Known) (few : locs.length ≤ 255) (ends : 0 ∈ key)
    (fits : registerSize locs pfx ≤ buf.length)
    : ∃ out auth,
        setLispMapRegister hmacSha1 buf (listOf locs) pfx key nonce
          = .ok (some (out, registerSize locs pfx))
        ∧ (out.take (registerSize locs pfx)).length = registerSize locs pfx
        ∧ RegisterFormat (out.take (registerSize locs pfx)) nonce auth locs pfx
        ∧ auth = hmacSha1 (key.takeWhile (· ≠ 0)) (blankAuth (out.take (registerSize locs pfx))) := by
  have fits' : (mapRegisterMessage (listOf locs) pfx nonce (zeros shaDigestLength)).length
      ≤ buf.length := by rwa [mapRegisterMessage_length valid known]
  have encoded := @setLispMapRegister_eq buf (listOf locs) pfx nonce hmacSha1 key
    (by rwa [listOf_nodes]) ends fits'
  generalize digest_eq : hmacSha1 (key.takeWhile (· ≠ 0))
    (mapRegisterMessage (listOf locs) pfx nonce (zeros shaDigestLength)) = digest at encoded
  have size := @mapRegisterMessage_length locs pfx nonce digest valid known
  have taken : (overlay buf (mapRegisterMessage (listOf locs) pfx nonce digest)).take
        (registerSize locs pfx)
      = mapRegisterMessage (listOf locs) pfx nonce digest := by rw [← size, take_overlay]
  refine ⟨overlay buf (mapRegisterMessage (listOf locs) pfx nonce digest), digest, ?_, ?_, ?_, ?_⟩
  · rw [encoded, mapRegisterMessage_length valid known]
  · rw [taken, size]
  · rw [taken]
    exact mapRegisterMessage_format valid known few
  · rw [taken, blankAuth_mapRegisterMessage, digest_eq]

/-- The bytes returned are a well-formed Map-Register, authenticated over the whole message. -/
theorem mapRegister_authentic (hmacSha1 : List Byte → List Byte → Bytes shaDigestLength)
    {buf key : List Byte} (nonce : Bytes 8) (valid : pfx.Valid)
    (known : ∀ loc ∈ locs, loc.Known) (few : locs.length ≤ 255) (ends : 0 ∈ key)
    (fits : registerSize locs pfx ≤ buf.length)
    : ∃ out msg auth,
        setLispMapRegister hmacSha1 buf (listOf locs) pfx key nonce
          = .ok (some (out, registerSize locs pfx))
        ∧ out.take (registerSize locs pfx) = msg ∧ msg.length = registerSize locs pfx
        ∧ RegisterFormat msg nonce auth locs pfx
        ∧ auth = hmacSha1 (key.takeWhile (· ≠ 0)) (blankAuth msg) := by
  obtain ⟨out, auth, encoded, length, format, digest⟩ :=
    setLispMapRegister_format hmacSha1 nonce valid known few ends fits
  exact ⟨out, _, auth, encoded, rfl, length, format, digest⟩

end

/-- A digest for testing: the first bytes of the key and the message. -/
def firstBytes (key msg : List Byte) : Bytes shaDigestLength :=
  ⟨(key ++ msg ++ List.replicate shaDigestLength 0).take shaDigestLength, by simp; omega⟩

/-- Witness: the Map-Register for 10.0.0.0/8 with two locators and the key "ab". -/
theorem testPrefix_registered
    : ∃ out msg auth,
        setLispMapRegister firstBytes (List.replicate 100 0xee) (listOf testLocators) testPrefix
            [97, 98, 0, 7] (zeros 8)
          = .ok (some (out, 88))
        ∧ out.take 88 = msg ∧ RegisterFormat msg (zeros 8) auth testLocators testPrefix
        ∧ auth = firstBytes [97, 98] (blankAuth msg) := by
  have fits
      : registerSize testLocators testPrefix ≤ (List.replicate 100 (0xee : Byte)).length := by
    decide
  obtain ⟨out, msg, auth, encoded, taken, _, format, digest⟩ := mapRegister_authentic
    firstBytes (zeros 8) (by decide) testLocators_known (by decide)
    (show 0 ∈ [97, 98, 0, 7] by decide) fits
  exact ⟨out, msg, auth, encoded, taken, format, digest⟩

end Lixy
