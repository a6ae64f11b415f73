import Lixy.Messages.Encoders

/-! What the encoders leave in the buffer: the message, part after part, over the start of
what the buffer held.
-/

namespace Lixy

open ByteStrings

-----------------------------------------------------------------------------------------
-- Writing on
-----------------------------------------------------------------------------------------

section

variable {buf done bs : List Byte}

/-- A write where the written part ends extends it. -/
theorem wr_overlay (fits : (done ++ bs).length ≤ buf.length)
    : wr (overlay buf done) done.length bs = .ok (overlay buf (done ++ bs)) := by
  rw [wr, overwrite_overlay fits]

/-- The first write. -/
theorem wr_zero (fits : bs.length ≤ buf.length) : wr buf 0 bs = .ok (overlay buf bs) := by
  have written : overwrite (overlay buf []) 0 bs = some (overlay buf ([] ++ bs)) :=
    overwrite_overlay fits
  rw [overlay_nil] at written
  rw [wr, written]
  rfl

/-- A write of the same length within the written part. -/
theorem wr_overlay_middle (front old back : List Byte) {off : Nat} (start : front.length = off)
    (same : bs.length = old.length)
    : wr (overlay buf (front ++ old ++ back)) off bs
      = .ok (overlay buf (front ++ bs ++ back)) := by
  subst start
  rw [wr, overwrite_overlay_middle same]

end

-----------------------------------------------------------------------------------------
-- Addresses
-----------------------------------------------------------------------------------------

/-- An address is known for just the two families. -/
theorem familyAddr_isSome_iff {family : Nat} {sinAddr : Bytes 4} {sin6Addr : Bytes 16}
    : (familyAddr family sinAddr sin6Addr).isSome ↔ family = afInet ∨ family = afInet6 := by
  unfold familyAddr
  split
  · simp_all
  · split <;> simp_all

/-- The locator's address is of a known family. -/
def Locator.Known (loc : Locator) : Prop := loc.locAddr.addr.isSome

instance (loc : Locator) : Decidable loc.Known := by
  unfold Locator.Known; infer_instance

/-- A valid prefix has an address. -/
theorem Prefix.Valid.addr_isSome {pfx : Prefix} (h : pfx.Valid) : pfx.addr.isSome :=
  familyAddr_isSome_iff.mpr (h.imp And.left And.left)

-----------------------------------------------------------------------------------------
-- Records and locators
-----------------------------------------------------------------------------------------

/-- A locator as it goes into a message: its fixed part and its address. -/
def locatorItem (loc : Locator) : List Byte := lispLocator loc ++ loc.locAddr.addr.getD []

/-- The record as it goes into a message: its fixed part and the EID prefix. -/
def recordItem (locTuple : ListT Locator) (pfx : Prefix) : List Byte :=
  lispRecord locTuple pfx ++ pfx.addr.getD []

@[simp]
theorem lispRecord_length (locTuple : ListT Locator) (pfx : Prefix)
    : (lispRecord locTuple pfx).length = sizeofLispRecord := rfl

@[simp]
theorem lispLocator_length (loc : Locator) : (lispLocator loc).length = sizeofLispLocator := rfl

section

variable {buf done : List Byte}

/-- The record is written behind what was written before. -/
theorem setRecord_eq {locTuple : ListT Locator} {pfx : Prefix}
    (fits : (done ++ recordItem locTuple pfx).length ≤ buf.length)
    : setRecord (overlay buf done) done.length locTuple pfx
      = .ok (overlay buf (done ++ recordItem locTuple pfx),
          (done ++ recordItem locTuple pfx).length) := by
  have size : done.length + sizeofLispRecord = (done ++ lispRecord locTuple pfx).length := by simp
  have fixed : (done ++ lispRecord locTuple pfx).length ≤ buf.length := by
    simp only [recordItem, List.length_append] at fits ⊢
    omega
  rw [setRecord, wr_overlay fixed]
  cases known : pfx.addr with
  | none =>
      have item : recordItem locTuple pfx = lispRecord locTuple pfx := by simp [recordItem, known]
      simp only [bind, Except.bind, pure, Except.pure, size, item]
  | some addr =>
      have item : recordItem locTuple pfx = lispRecord locTuple pfx ++ addr := by
        simp [recordItem, known]
      rw [item, ← List.append_assoc] at fits ⊢
      have size' : (done ++ lispRecord locTuple pfx).length + addr.length
          = (done ++ lispRecord locTuple pfx ++ addr).length := List.length_append.symm
      simp only [bind, Except.bind, size, wr_overlay fits, pure, Except.pure, size']

/-- The loop writes one locator behind the other; by induction on the locators. -/
theorem setLocators_eq {locs : List Locator} (known : ∀ loc ∈ locs, loc.Known)
    (fits : (done ++ locs.flatMap locatorItem).length ≤ buf.length)
    : setLocators (overlay buf done) done.length locs
      = .ok (some (overlay buf (done ++ locs.flatMap locatorItem),
          (done ++ locs.flatMap locatorItem).length)) := by
  induction locs generalizing done with
  | nil => simp [setLocators]
  | cons loc rest ih =>
      obtain ⟨addr, addr_eq⟩ := Option.isSome_iff_exists.mp (known loc (by simp))
      have item : locatorItem loc = lispLocator loc ++ addr := by simp [locatorItem, addr_eq]
      rw [List.flatMap_cons, item, ← List.append_assoc, ← List.append_assoc] at fits ⊢
      have whole : (done ++ lispLocator loc ++ addr).length ≤ buf.length := by
        rw [List.length_append] at fits
        omega
      have fixed : (done ++ lispLocator loc).length ≤ buf.length := by
        rw [List.length_append] at whole
        omega
      have size : done.length + sizeofLispLocator = (done ++ lispLocator loc).length := by simp
      have rest_eq := ih (fun other mem => known other (by simp [mem])) fits
      have size' : (done ++ lispLocator loc).length + addr.length
          = (done ++ lispLocator loc ++ addr).length := List.length_append.symm
      simp only [setLocators, bind, Except.bind, wr_overlay fixed, addr_eq, size,
        wr_overlay whole, size', rest_eq]

end

-----------------------------------------------------------------------------------------
-- Whole messages
-----------------------------------------------------------------------------------------

/-- The header of a Map-Reply with one record and the probe flag. -/
def mapReplyHeader (nonce : Bytes 8) : List Byte :=
  [BitVec.ofNat 8 (lispMapRply * 16 + 8), 0, 0, 1] ++ nonce.toList

/-- A Map-Reply for a prefix. -/
def mapReplyMessage (locTuple : ListT Locator) (pfx : Prefix) (nonce : Bytes 8) : List Byte :=
  mapReplyHeader nonce ++ recordItem locTuple pfx ++ locTuple.nodes.flatMap locatorItem

/-- The header of a Map-Register with one record: key id 1 and room for an SHA-1 digest. -/
def mapRegisterHeader (nonce : Bytes 8) (auth : Bytes shaDigestLength) : List Byte :=
  [BitVec.ofNat 8 (lispMapRgst * 16 + 8), 0, 0, 1] ++ nonce.toList ++ put16 1
    ++ put16 shaDigestLength ++ auth.toList

/-- A Map-Register for a prefix. -/
def mapRegisterMessage (locTuple : ListT Locator) (pfx : Prefix) (nonce : Bytes 8)
    (auth : Bytes shaDigestLength) : List Byte :=
  mapRegisterHeader nonce auth ++ recordItem locTuple pfx ++ locTuple.nodes.flatMap locatorItem

@[simp]
theorem mapReplyHeader_length (nonce : Bytes 8) : (mapReplyHeader nonce).length = 12 := by
  simp [mapReplyHeader]

@[simp]
theorem mapRegisterHeader_length (nonce : Bytes 8) (auth : Bytes shaDigestLength)
    : (mapRegisterHeader nonce auth).length = 36 := by
  simp [mapRegisterHeader, shaDigestLength]

section

variable {buf : List Byte} {locTuple : ListT Locator} {pfx : Prefix} {nonce : Bytes 8}

/-- `set_lisp_map_reply` leaves the message over the start of the buffer. -/
theorem setLispMapReply_eq (known : ∀ loc ∈ locTuple.nodes, loc.Known)
    (fits : (mapReplyMessage locTuple pfx nonce).length ≤ buf.length)
    : setLispMapReply buf locTuple pfx nonce
      = .ok (some (overlay buf (mapReplyMessage locTuple pfx nonce),
          (mapReplyMessage locTuple pfx nonce).length)) := by
  have upTo : (mapReplyHeader nonce ++ recordItem locTuple pfx).length ≤ buf.length := by
    simp only [mapReplyMessage, List.length_append] at fits ⊢
    omega
  have header : (mapReplyHeader nonce).length ≤ buf.length := by
    rw [List.length_append] at upTo
    omega
  have size : sizeofLispMapReply = (mapReplyHeader nonce).length := by simp
  have first : wr buf 0 ([BitVec.ofNat 8 (lispMapRply * 16 + 8), 0, 0, 1] ++ nonce.toList)
      = .ok (overlay buf (mapReplyHeader nonce)) := wr_zero header
  simp only [setLispMapReply, first, bind, Except.bind, size, setRecord_eq upTo]
  exact setLocators_eq known fits

/-- `set_lisp_map_register` leaves the message over the start of the buffer, with the digest of
the message that has zeros in the digest's place.
-/
theorem setLispMapRegister_eq {hmacSha1 : List Byte → List Byte → Bytes shaDigestLength}
    {key : List Byte} (known : ∀ loc ∈ locTuple.nodes, loc.Known) (ends : 0 ∈ key)
    (fits : (mapRegisterMessage locTuple pfx nonce (zeros shaDigestLength)).length ≤ buf.length)
    : setLispMapRegister hmacSha1 buf locTuple pfx key nonce
      = .ok (some
          (overlay buf (mapRegisterMessage locTuple pfx nonce
            (hmacSha1 (key.takeWhile (· ≠ 0))
              (mapRegisterMessage locTuple pfx nonce (zeros shaDigestLength)))),
          (mapRegisterMessage locTuple pfx nonce (zeros shaDigestLength)).length)) := by
  have upTo : (mapRegisterHeader (zeros 8) (zeros shaDigestLength)
      ++ recordItem locTuple pfx).length ≤ buf.length := by
    simp only [mapRegisterMessage, List.length_append, mapRegisterHeader_length] at fits ⊢
    omega
  have start : (mapRegisterHeader (zeros 8) (zeros shaDigestLength)).length ≤ buf.length := by
    rw [List.length_append] at upTo
    omega
  have size : sizeofLispMapRegister
      = (mapRegisterHeader (zeros 8) (zeros shaDigestLength)).length := by simp
  -- the header with zeros for the nonce and the digest
  have first : wr buf 0 ([BitVec.ofNat 8 (lispMapRgst * 16 + 8), 0, 0, 1] ++ List.replicate 8 0
      ++ put16 1 ++ put16 shaDigestLength ++ List.replicate shaDigestLength 0)
      = .ok (overlay buf (mapRegisterHeader (zeros 8) (zeros shaDigestLength))) := wr_zero start
  -- the nonce goes over its zeros
  have drawn : wr (overlay buf (mapRegisterHeader (zeros 8) (zeros shaDigestLength)
        ++ recordItem locTuple pfx)) 4 nonce.toList
      = .ok (overlay buf (mapRegisterHeader nonce (zeros shaDigestLength)
        ++ recordItem locTuple pfx)) := by
    have parts (n : Bytes 8)
        : mapRegisterHeader n (zeros shaDigestLength) ++ recordItem locTuple pfx
          = [BitVec.ofNat 8 (lispMapRgst * 16 + 8), 0, 0, 1] ++ n.toList
            ++ (put16 1 ++ put16 shaDigestLength ++ (zeros shaDigestLength).toList
              ++ recordItem locTuple pfx) := by
      simp only [mapRegisterHeader, List.append_assoc]
    rw [parts, parts]
    exact wr_overlay_middle _ _ _ rfl (by simp)
  -- the digest goes over its zeros
  have digested (auth : Bytes shaDigestLength)
      : wr (overlay buf (mapRegisterMessage locTuple pfx nonce (zeros shaDigestLength))) 16
          auth.toList
        = .ok (overlay buf (mapRegisterMessage locTuple pfx nonce auth)) := by
    have parts (auth : Bytes shaDigestLength)
        : mapRegisterMessage locTuple pfx nonce auth
          = ([BitVec.ofNat 8 (lispMapRgst * 16 + 8), 0, 0, 1] ++ nonce.toList ++ put16 1
              ++ put16 shaDigestLength)
            ++ auth.toList ++ (recordItem locTuple pfx ++ locTuple.nodes.flatMap locatorItem) := by
      simp only [mapRegisterMessage, mapRegisterHeader, List.append_assoc]
    rw [parts, parts]
    exact wr_overlay_middle _ _ _ (by simp) (by simp)
  have locators : setLocators (overlay buf (mapRegisterHeader nonce (zeros shaDigestLength)
        ++ recordItem locTuple pfx))
        (mapRegisterHeader nonce (zeros shaDigestLength) ++ recordItem locTuple pfx).length
        locTuple.nodes
      = .ok (some (overlay buf (mapRegisterMessage locTuple pfx nonce (zeros shaDigestLength)),
          (mapRegisterMessage locTuple pfx nonce (zeros shaDigestLength)).length)) :=
    setLocators_eq known fits
  have string : rdString key 0 = .ok (key.takeWhile (· ≠ 0)) := by
    rw [rdString, List.drop_zero, if_pos ends]
  have length
      : (mapRegisterHeader (zeros 8) (zeros shaDigestLength) ++ recordItem locTuple pfx).length
        = (mapRegisterHeader nonce (zeros shaDigestLength) ++ recordItem locTuple pfx).length := by
    simp
  simp only [setLispMapRegister, first, bind, Except.bind, size, setRecord_eq upTo, drawn, length,
    locators, string, hmac, take_overlay, digested]
  rfl

end

end Lixy
