import Lixy.Messages.ReplyRoundTrip

/-! The Map-Request of lisp.h and what `set_lisp_map_request` makes of it: the message with
exactly one ITR-RLOC. With more, the room for the other AFIs is never written.
-/

namespace Lixy

open ByteStrings

-----------------------------------------------------------------------------------------
-- The format
-----------------------------------------------------------------------------------------

/-- An option-less IPv4 header of a UDP datagram with `following` bytes behind it. -/
structure Ipv4Header (ip : List Byte) (following : Nat) : Prop where
  length : ip.length = 20
  version : byteAt ip 0 = 0x45
  totalLength : field16 ip 2 = 20 + following
  protocol : byteAt ip 9 = 17

/-- An IPv6 header of a UDP datagram with `following` bytes behind it. -/
structure Ipv6Header (ip : List Byte) (following : Nat) : Prop where
  length : ip.length = 40
  version : (byteAt ip 0 >>> 4).toNat = 6
  payloadLength : field16 ip 4 = following
  nextHeader : byteAt ip 6 = 17

/-- The inner IP header of a family. -/
def InnerHeader (family : Nat) (ip : List Byte) (following : Nat) : Prop :=
  if family = afInet then Ipv4Header ip following else Ipv6Header ip following

/-- A UDP header between control ports with `following` bytes behind it. -/
structure UdpHeader (udp : List Byte) (following : Nat) : Prop where
  length : udp.length = 8
  source : field16 udp 0 = lispControlPort
  destination : field16 udp 2 = lispControlPort
  totalLength : field16 udp 4 = 8 + following

/-- An ITR-RLOC: the locator's AFI and, right behind it, its address. -/
def itrItem (loc : Locator) : List Byte :=
  put16 (afToLispafi loc.locAddr.family) ++ loc.locAddr.addr.getD []

/-- The record of a Map-Request. -/
def requestItem (pfx : Prefix) : List Byte :=
  [0, BitVec.ofNat 8 pfx.bitlen] ++ put16 (afToLispafi pfx.family) ++ pfx.addr.getD []

/-- The Map-Request itself, without a source EID. -/
def requestPayload (irc : Byte) (nonce : Bytes 8) (locs : List Locator) (pfx : Prefix)
    : List Byte :=
  [BitVec.ofNat 8 (lispMapRqst * 16), 0, irc, 1] ++ nonce.toList ++ put16 0
    ++ locs.flatMap itrItem ++ requestItem pfx

/-- An encapsulated Map-Request for a prefix, with all the locators as ITR-RLOCs. -/
def RequestFormat (msg : List Byte) (nonce : Bytes 8) (locs : List Locator) (pfx : Prefix)
    : Prop :=
  ∃ ip udp irc,
    msg = lispControl lispEcapCtl ++ ip ++ udp ++ requestPayload irc nonce locs pfx
      ∧ InnerHeader pfx.family ip (udp ++ requestPayload irc nonce locs pfx).length
      ∧ UdpHeader udp (requestPayload irc nonce locs pfx).length
      ∧ irc.toNat + 1 = locs.length

/-- Whatever a buffer of that size held, the bytes returned are one and the same message in
the format.
-/
def RequestEncoded (size : Nat) (locs : List Locator) (pfx : Prefix) : Prop :=
  ∀ nonce, ∃ msg, RequestFormat msg nonce locs pfx
    ∧ ∀ buf : List Byte, buf.length = size
      → ∃ out, setLispMapRequest buf (listOf locs) pfx nonce = .ok (some (out, msg.length))
          ∧ out.take msg.length = msg

-----------------------------------------------------------------------------------------
-- One locator
-----------------------------------------------------------------------------------------

section

variable {buf done : List Byte} {pfx : Prefix} {loc : Locator}

/-- The loop over a single locator writes its item. -/
theorem setItrRlocs_single (known : loc.Known)
    (fits : (done ++ itrItem loc).length ≤ buf.length)
    : setItrRlocs (overlay buf done) done.length done.length [loc]
      = .ok (some (overlay buf (done ++ itrItem loc), (done ++ itrItem loc).length)) := by
  obtain ⟨addr, addr_eq⟩ := Option.isSome_iff_exists.mp known
  have item : itrItem loc = put16 (afToLispafi loc.locAddr.family) ++ addr := by
    simp [itrItem, addr_eq]
  rw [item, ← List.append_assoc] at fits ⊢
  have afi : (done ++ put16 (afToLispafi loc.locAddr.family)).length ≤ buf.length := by
    rw [List.length_append] at fits
    omega
  have size : done.length + 2 = (done ++ put16 (afToLispafi loc.locAddr.family)).length := by simp
  have size' : (done ++ put16 (afToLispafi loc.locAddr.family)).length + addr.length
      = (done ++ put16 (afToLispafi loc.locAddr.family) ++ addr).length :=
    List.length_append.symm
  simp only [setItrRlocs, addr_eq, bind, Except.bind, wr_overlay afi, size, wr_overlay fits, size']

/-- The record is written behind what was written before. -/
theorem setRequestRecord_eq {addr : List Byte} (known : pfx.addr = some addr)
    (fits : (done ++ requestItem pfx).length ≤ buf.length)
    : setRequestRecord (overlay buf done) done.length pfx addr
      = .ok (overlay buf (done ++ requestItem pfx), (done ++ requestItem pfx).length) := by
  have item : requestItem pfx
      = [0, BitVec.ofNat 8 pfx.bitlen] ++ put16 (afToLispafi pfx.family) ++ addr := by
    simp [requestItem, known]
  rw [item, ← List.append_assoc] at fits ⊢
  generalize fixed_eq : [0, BitVec.ofNat 8 pfx.bitlen] ++ put16 (afToLispafi pfx.family) = fixed
    at fits ⊢
  have upTo : (done ++ fixed).length ≤ buf.length := by
    rw [List.length_append] at fits
    omega
  have size : done.length + sizeofLispMapRequestRecord = (done ++ fixed).length := by
    simp [← fixed_eq]
  have size' : (done ++ fixed).length + addr.length = (done ++ fixed ++ addr).length :=
    List.length_append.symm
  simp only [setRequestRecord, fixed_eq, bind, Except.bind, wr_overlay upTo, size, wr_overlay fits,
    size', pure, Except.pure]

end

-----------------------------------------------------------------------------------------
-- The headers
-----------------------------------------------------------------------------------------

/-- The inner IP header with a length and the two bytes of a checksum. -/
def innerHeader (pfx : Prefix) (src : SockaddrStorage) (length : Nat) (sum : List Byte)
    : List Byte :=
  if pfx.family = afInet then
    [0x45, 0] ++ put16 length ++ [0, 0, 0, 0, 255, 17] ++ sum ++ src.sinAddr.toList
      ++ (sin pfx.add).toList
  else
    [0x6e, 0, 0, 0] ++ put16 length ++ [17, 64] ++ src.sin6Addr.toList ++ pfx.add.toList

/-- What lies in front of a Map-Request. -/
def requestHeaders (pfx : Prefix) (src : SockaddrStorage) (length : Nat) (sum : List Byte)
    (uLen : Nat)
    : List Byte :=
  lispControl lispEcapCtl ++ innerHeader pfx src length sum
    ++ setUdpHdr uLen lispControlPort lispControlPort

/-- The size of the inner IP header of a family. -/
def sizeofInner (family : Nat) : Nat := if family = afInet then sizeofIp else sizeofIp6Hdr

/-- The length field of the inner IP header with `following` bytes behind it: an IPv4 header
counts itself.
-/
def innerLength (family following : Nat) : Nat :=
  if family = afInet then sizeofIp + following else following

/-- The checksum in the inner IP header, as the source's little-endian machine stores it. -/
def innerSum (pfx : Prefix) (src : SockaddrStorage) (length : Nat) : List Byte :=
  (put16 (chksum (innerHeader pfx src length [0, 0]))).reverse

section

variable {buf body : List Byte} {pfx : Prefix} {src : SockaddrStorage}

theorem innerHeader_length {length : Nat} {sum : List Byte} (two : sum.length = 2)
    : (innerHeader pfx src length sum).length = sizeofInner pfx.family := by
  unfold innerHeader sizeofInner
  split <;> simp [two]

theorem requestHeaders_length {length uLen : Nat} {sum : List Byte} (two : sum.length = 2)
    : (requestHeaders pfx src length sum uLen).length
      = sizeofLispControl + sizeofInner pfx.family + sizeofUdphdr := by
  simp only [requestHeaders, lispControl, setUdpHdr, List.length_append, innerHeader_length two,
    List.length_cons, List.length_nil, put16_length, sizeofLispControl, sizeofUdphdr]

/-- The field of the inner length. -/
theorem wr_innerLength {length length' uLen : Nat} {sum : List Byte}
    : wr (overlay buf (requestHeaders pfx src length sum uLen ++ body))
        (sizeofLispControl + if pfx.family = afInet then 2 else 4) (put16 length')
      = .ok (overlay buf (requestHeaders pfx src length' sum uLen ++ body)) := by
  by_cases ipv4 : pfx.family = afInet
  · have parts (length : Nat)
        : requestHeaders pfx src length sum uLen ++ body
          = (lispControl lispEcapCtl ++ [0x45, 0]) ++ put16 length
            ++ ([0, 0, 0, 0, 255, 17] ++ sum ++ src.sinAddr.toList ++ (sin pfx.add).toList
              ++ setUdpHdr uLen lispControlPort lispControlPort ++ body) := by
      simp only [requestHeaders, innerHeader, if_pos ipv4, List.append_assoc]
    rw [parts, parts, if_pos ipv4]
    exact wr_overlay_middle _ _ _ rfl rfl
  · have parts (length : Nat)
        : requestHeaders pfx src length sum uLen ++ body
          = (lispControl lispEcapCtl ++ [0x6e, 0, 0, 0]) ++ put16 length
            ++ ([17, 64] ++ src.sin6Addr.toList ++ pfx.add.toList
              ++ setUdpHdr uLen lispControlPort lispControlPort ++ body) := by
      simp only [requestHeaders, innerHeader, if_neg ipv4, List.append_assoc]
    rw [parts, parts, if_neg ipv4]
    exact wr_overlay_middle _ _ _ rfl rfl

/-- The field of the UDP length. -/
theorem wr_uLen {length uLen uLen' : Nat} {sum : List Byte} (two : sum.length = 2)
    : wr (overlay buf (requestHeaders pfx src length sum uLen ++ body))
        (sizeofLispControl + sizeofInner pfx.family + 4) (put16 uLen')
      = .ok (overlay buf (requestHeaders pfx src length sum uLen' ++ body)) := by
  have parts (uLen : Nat)
      : requestHeaders pfx src length sum uLen ++ body
        = (lispControl lispEcapCtl ++ innerHeader pfx src length sum ++ put16 lispControlPort
            ++ put16 lispControlPort)
          ++ put16 uLen ++ ([0, 0] ++ body) := by
    simp only [requestHeaders, setUdpHdr, List.append_assoc]
  have start : (lispControl lispEcapCtl ++ innerHeader pfx src length sum ++ put16 lispControlPort
      ++ put16 lispControlPort).length = sizeofLispControl + sizeofInner pfx.family + 4 := by
    simp only [List.length_append, innerHeader_length two, put16_length]
    rfl
  rw [parts, parts]
  exact wr_overlay_middle _ _ _ start rfl

/-- The field of the IPv4 checksum. -/
theorem wr_innerSum (ipv4 : pfx.family = afInet) {length uLen : Nat} {sum sum' : List Byte}
    (two : sum.length = 2) (two' : sum'.length = 2)
    : wr (overlay buf (requestHeaders pfx src length sum uLen ++ body)) (sizeofLispControl + 10)
        sum'
      = .ok (overlay buf (requestHeaders pfx src length sum' uLen ++ body)) := by
  have parts (sum : List Byte)
      : requestHeaders pfx src length sum uLen ++ body
        = (lispControl lispEcapCtl ++ [0x45, 0] ++ put16 length ++ [0, 0, 0, 0, 255, 17]) ++ sum
          ++ (src.sinAddr.toList ++ (sin pfx.add).toList
            ++ setUdpHdr uLen lispControlPort lispControlPort ++ body) := by
    simp only [requestHeaders, innerHeader, if_pos ipv4, List.append_assoc]
  rw [parts, parts]
  exact wr_overlay_middle _ _ _ rfl (two'.trans two.symm)

/-- The inner IPv4 header as the checksum reads it. -/
theorem rdBytes_innerHeader {length uLen : Nat} {sum : List Byte}
    (sized : (innerHeader pfx src length sum).length = sizeofIp)
    : rdBytes (overlay buf (requestHeaders pfx src length sum uLen ++ body)) sizeofLispControl
        sizeofIp
      = .ok ⟨innerHeader pfx src length sum, sized⟩ := by
  have lies : LiesAt (overlay buf (requestHeaders pfx src length sum uLen ++ body))
      sizeofLispControl (innerHeader pfx src length sum) := by
    refine ⟨lispControl lispEcapCtl, setUdpHdr uLen lispControlPort lispControlPort ++ (body
      ++ buf.drop (requestHeaders pfx src length sum uLen ++ body).length), ?_, rfl⟩
    simp only [overlay, requestHeaders, List.append_assoc]
  exact rdBytes_eq_ok.mpr (lies.slice sized)

/-- The lengths and the checksum go over what the headers had in their places. -/
theorem setLengths_eq {following length uLen : Nat}
    : setLengths (overlay buf (requestHeaders pfx src length [0, 0] uLen ++ body))
        (sizeofLispControl + sizeofInner pfx.family + following) pfx
      = .ok (overlay buf
          (requestHeaders pfx src (innerLength pfx.family following)
            (innerSum pfx src (innerLength pfx.family following)) following ++ body)) := by
  by_cases ipv4 : pfx.family = afInet
  · have sized : (innerHeader pfx src (sizeofIp + following) [0, 0]).length = sizeofIp := by
      rw [innerHeader_length rfl, sizeofInner, if_pos ipv4]
    have lengthSet := @wr_innerLength buf body pfx src length (sizeofIp + following) uLen [0, 0]
    have uLenSet := @wr_uLen buf body pfx src (sizeofIp + following) uLen following [0, 0] rfl
    have sumSet := @wr_innerSum buf body pfx src ipv4 (sizeofIp + following) following [0, 0]
      (innerSum pfx src (sizeofIp + following)) rfl rfl
    have total : sizeofLispControl + sizeofIp + following - sizeofLispControl
        = sizeofIp + following := by omega
    have inner : sizeofIp + following - sizeofIp = following := by omega
    simp only [sizeofInner, if_pos ipv4, innerLength] at lengthSet uLenSet ⊢
    simp only [setLengths, if_pos ipv4, total, inner, lengthSet, uLenSet,
      rdBytes_innerHeader sized, bind, Except.bind]
    exact sumSet
  · have lengthSet := @wr_innerLength buf body pfx src length following uLen [0, 0]
    have uLenSet := @wr_uLen buf body pfx src following uLen following [0, 0] rfl
    have inner : sizeofLispControl + sizeofIp6Hdr + following - sizeofLispControl - sizeofIp6Hdr
        = following := by omega
    have unsummed : requestHeaders pfx src following [0, 0] following
        = requestHeaders pfx src following (innerSum pfx src following) following := by
      simp only [requestHeaders, innerHeader, if_neg ipv4]
    simp only [sizeofInner, if_neg ipv4, innerLength] at lengthSet uLenSet ⊢
    simp only [setLengths, if_neg ipv4, inner, lengthSet, bind, Except.bind]
    rw [← unsummed]
    exact uLenSet

end

-----------------------------------------------------------------------------------------
-- The message up to the ITR-RLOCs
-----------------------------------------------------------------------------------------

/-- The source address of the inner header: a locator's of the prefix's family, or zeros. -/
def requestSource (locTuple : ListT Locator) (pfx : Prefix) : SockaddrStorage :=
  match getLocator locTuple pfx.family with
  | some loc => loc.locAddr
  | none => { SockaddrStorage.zero with family := pfx.family }

/-- The Map-Request header and the source EID AFI. -/
def requestStart (irc : Byte) (nonce : Bytes 8) : List Byte :=
  [BitVec.ofNat 8 (lispMapRqst * 16), 0, irc, 1] ++ nonce.toList ++ put16 0

/-- The IRC of the source: the count less one, in 5 bits. -/
def requestIrcOf (locTuple : ListT Locator) : Byte :=
  BitVec.ofNat 8 ((locTuple.count - 1).toNat % 32)

/-- All that is written before the ITR-RLOCs. -/
def requestFront (locTuple : ListT Locator) (pfx : Prefix) (nonce : Bytes 8) : List Byte :=
  requestHeaders pfx (requestSource locTuple pfx) (innerLength pfx.family sizeofUdphdr) [0, 0] 0
    ++ requestStart (requestIrcOf locTuple) nonce

section

variable {buf : List Byte} {locTuple : ListT Locator} {pfx : Prefix} {nonce : Bytes 8}

theorem requestFront_length
    : (requestFront locTuple pfx nonce).length
      = sizeofLispControl + sizeofInner pfx.family + sizeofUdphdr + 14 := by
  simp only [requestFront, List.length_append,
    requestHeaders_length (show [0, 0].length = 2 from rfl), requestStart]
  simp

/-- The writes for a prefix of a known family, one behind the other. -/
theorem setLispMapRequest_writes {addr : List Byte} (known : pfx.addr = some addr)
    : setLispMapRequest buf locTuple pfx nonce
      = (do
        let buf ← wr buf 0 (lispControl lispEcapCtl)
        let buf ← wr buf sizeofLispControl
          (innerHeader pfx (requestSource locTuple pfx) (innerLength pfx.family sizeofUdphdr) [0, 0])
        let buf ← wr buf (sizeofLispControl + sizeofInner pfx.family)
          (setUdpHdr 0 lispControlPort lispControlPort)
        let buf ← wr buf (sizeofLispControl + sizeofInner pfx.family + sizeofUdphdr)
          ([BitVec.ofNat 8 (lispMapRqst * 16), 0, requestIrcOf locTuple, 1] ++ nonce.toList)
        let pktlen := sizeofLispControl + sizeofInner pfx.family + sizeofUdphdr + sizeofLispMapRequest
        let buf ← wr buf pktlen (put16 0)
        match ← setItrRlocs buf (pktlen + 2) (pktlen + 2) locTuple.nodes with
        | none => return none
        | some (buf, pktlen) =>
            let (buf, pktlen) ← setRequestRecord buf pktlen pfx addr
            let buf ← setLengths buf pktlen pfx
            return some (buf, pktlen)) := by
  have iphdr_eq : (if pfx.family = afInet then
        setIpHdr 0 (requestSource locTuple pfx).sinAddr (Lixy.sin pfx.add)
      else
        setIp6Hdr 0 (requestSource locTuple pfx).sin6Addr pfx.add)
      = innerHeader pfx (requestSource locTuple pfx) (innerLength pfx.family sizeofUdphdr)
        [0, 0] := by
    unfold innerHeader innerLength
    split <;> rfl
  have size := @innerHeader_length pfx (requestSource locTuple pfx)
    (innerLength pfx.family sizeofUdphdr) [0, 0] rfl
  rw [← size, ← iphdr_eq]
  simp only [setLispMapRequest, known]
  rfl

/-- The front is written, then the ITR-RLOCs, the record and the lengths. -/
theorem setLispMapRequest_front {addr : List Byte} (known : pfx.addr = some addr)
    (fits : (requestFront locTuple pfx nonce).length ≤ buf.length)
    : setLispMapRequest buf locTuple pfx nonce
      = (do
        match ← setItrRlocs (overlay buf (requestFront locTuple pfx nonce))
          (requestFront locTuple pfx nonce).length (requestFront locTuple pfx nonce).length
          locTuple.nodes with
        | none => return none
        | some (buf, pktlen) =>
            let (buf, pktlen) ← setRequestRecord buf pktlen pfx addr
            let buf ← setLengths buf pktlen pfx
            return some (buf, pktlen)) := by
  rw [setLispMapRequest_writes known]
  have ipSize := @innerHeader_length pfx (requestSource locTuple pfx)
    (innerLength pfx.family sizeofUdphdr) [0, 0] rfl
  generalize ip_eq : innerHeader pfx (requestSource locTuple pfx)
    (innerLength pfx.family sizeofUdphdr) [0, 0] = ip at ipSize ⊢
  generalize ctl_eq : lispControl lispEcapCtl = ctl
  generalize udp_eq : setUdpHdr 0 lispControlPort lispControlPort = udp
  generalize req_eq : [BitVec.ofNat 8 (lispMapRqst * 16), 0, requestIrcOf locTuple, 1]
    ++ nonce.toList = req
  have front : requestFront locTuple pfx nonce = ctl ++ ip ++ udp ++ req ++ put16 0 := by
    rw [requestFront, requestHeaders, requestStart, ip_eq, ctl_eq, udp_eq, req_eq]
    exact (List.append_assoc _ _ _).symm
  rw [front] at fits ⊢
  have udpSize : udp.length = sizeofUdphdr := by rw [← udp_eq]; rfl
  have reqSize : req.length = sizeofLispMapRequest := by rw [← req_eq]; simp
  have fits3 : (ctl ++ ip ++ udp ++ req).length ≤ buf.length := by
    rw [List.length_append] at fits
    omega
  have fits2 : (ctl ++ ip ++ udp).length ≤ buf.length := by
    rw [List.length_append] at fits3
    omega
  have fits1 : (ctl ++ ip).length ≤ buf.length := by
    rw [List.length_append] at fits2
    omega
  have fits0 : ctl.length ≤ buf.length := by
    rw [List.length_append] at fits1
    omega
  have size0 : sizeofLispControl = ctl.length := by rw [← ctl_eq]; rfl
  have size1 : ctl.length + sizeofInner pfx.family = (ctl ++ ip).length := by
    rw [← ipSize]
    exact List.length_append.symm
  have size2 : (ctl ++ ip).length + sizeofUdphdr = (ctl ++ ip ++ udp).length := by
    rw [← udpSize]
    exact List.length_append.symm
  have size3 : (ctl ++ ip ++ udp).length + sizeofLispMapRequest
      = (ctl ++ ip ++ udp ++ req).length := by
    rw [← reqSize]
    exact List.length_append.symm
  have size4 : (ctl ++ ip ++ udp ++ req).length + 2
      = (ctl ++ ip ++ udp ++ req ++ put16 0).length := by
    rw [← put16_length 0]
    exact List.length_append.symm
  simp only [wr_zero fits0, bind, Except.bind, size0, wr_overlay fits1, size1, wr_overlay fits2,
    size2, wr_overlay fits3, size3, wr_overlay fits, size4]

end

-----------------------------------------------------------------------------------------
-- The whole message
-----------------------------------------------------------------------------------------

/-- The size of the Map-Request for a prefix with all the locators as ITR-RLOCs. -/
def requestSize (locs : List Locator) (pfx : Prefix) : Nat :=
  sizeofLispControl + sizeofInner pfx.family + sizeofUdphdr
    + (requestPayload 0 (zeros 8) locs pfx).length

section

variable {buf : List Byte} {locs : List Locator} {loc : Locator} {pfx : Prefix} {nonce : Bytes 8}
  {irc : Byte}

theorem requestPayload_eq
    : requestPayload irc nonce locs pfx
      = requestStart irc nonce ++ (locs.flatMap itrItem ++ requestItem pfx) := by
  simp only [requestPayload, requestStart, List.append_assoc]

theorem requestPayload_length
    : (requestPayload irc nonce locs pfx).length
      = 14 + (locs.flatMap itrItem).length + (requestItem pfx).length := by
  simp [requestPayload]
  omega

/-- The message with its lengths and its checksum. -/
def requestMessage (locTuple : ListT Locator) (pfx : Prefix) (nonce : Bytes 8) : List Byte :=
  let payload := requestPayload (requestIrcOf locTuple) nonce locTuple.nodes pfx
  let following := sizeofUdphdr + payload.length
  let src := requestSource locTuple pfx
  requestHeaders pfx src (innerLength pfx.family following)
    (innerSum pfx src (innerLength pfx.family following)) following ++ payload

/-- With a single locator, the message is left over the start of the buffer. -/
theorem setLispMapRequest_single (valid : pfx.Valid) (known : loc.Known)
    (fits : requestSize [loc] pfx ≤ buf.length)
    : setLispMapRequest buf (listOf [loc]) pfx nonce
      = .ok (some (overlay buf (requestMessage (listOf [loc]) pfx nonce),
          (requestMessage (listOf [loc]) pfx nonce).length)) := by
  obtain ⟨addr, addr_eq⟩ := Option.isSome_iff_exists.mp valid.addr_isSome
  have flat : [loc].flatMap itrItem = itrItem loc := by simp
  have size : (requestFront (listOf [loc]) pfx nonce ++ itrItem loc ++ requestItem pfx).length
      = requestSize [loc] pfx := by
    simp only [List.length_append, requestFront_length, requestSize, requestPayload_length, flat]
    omega
  have whole : (requestFront (listOf [loc]) pfx nonce ++ itrItem loc ++ requestItem pfx).length
      ≤ buf.length := size ▸ fits
  have upTo : (requestFront (listOf [loc]) pfx nonce ++ itrItem loc).length ≤ buf.length := by
    rw [List.length_append] at whole
    omega
  have front : (requestFront (listOf [loc]) pfx nonce).length ≤ buf.length := by
    rw [List.length_append] at upTo
    omega
  rw [setLispMapRequest_front addr_eq front, listOf_nodes]
  simp only [bind, Except.bind, setItrRlocs_single known upTo, setRequestRecord_eq addr_eq whole]
  have parts : requestFront (listOf [loc]) pfx nonce ++ itrItem loc ++ requestItem pfx
      = requestHeaders pfx (requestSource (listOf [loc]) pfx)
          (innerLength pfx.family sizeofUdphdr) [0, 0] 0
        ++ requestPayload (requestIrcOf (listOf [loc])) nonce [loc] pfx := by
    rw [requestFront, requestPayload_eq, flat]
    simp only [List.append_assoc]
  have total : requestSize [loc] pfx
      = sizeofLispControl + sizeofInner pfx.family
        + (sizeofUdphdr
          + (requestPayload (requestIrcOf (listOf [loc])) nonce [loc] pfx).length) := by
    simp only [requestSize, requestPayload_length]
    omega
  have size' : (requestMessage (listOf [loc]) pfx nonce).length = requestSize [loc] pfx := by
    rw [requestMessage, List.length_append, requestHeaders_length rfl, total, listOf_nodes]
    omega
  rw [size, size', parts, total, setLengths_eq, requestMessage, listOf_nodes]
  rfl

/-- An address is of 4 or of 16 bytes, where there is one. -/
theorem familyAddr_length_le (family : Nat) (sinAddr : Bytes 4) (sin6Addr : Bytes 16)
    : ((familyAddr family sinAddr sin6Addr).getD []).length ≤ 16 := by
  cases known : familyAddr family sinAddr sin6Addr with
  | none => simp
  | some addr =>
      rcases familyAddr_eq_some.mp known with ⟨_, rfl⟩ | ⟨_, rfl⟩ <;> simp

theorem itrItem_length_le (loc : Locator) : (itrItem loc).length ≤ 18 := by
  have addr := familyAddr_length_le loc.locAddr.family loc.locAddr.sinAddr loc.locAddr.sin6Addr
  simp only [itrItem, SockaddrStorage.addr, List.length_append, put16_length]
  omega

theorem requestItem_length_le (pfx : Prefix) : (requestItem pfx).length ≤ 20 := by
  have addr := familyAddr_length_le pfx.family (sin pfx.add) pfx.add
  simp only [requestItem, Prefix.addr, List.length_append, put16_length, List.length_cons,
    List.length_nil]
  omega

/-- The inner header states its length. -/
theorem innerHeader_innerHeader {src : SockaddrStorage} {sum : List Byte} {following : Nat}
    (two : sum.length = 2) (short : following < 60000)
    : InnerHeader pfx.family (innerHeader pfx src (innerLength pfx.family following) sum)
        following := by
  have sized := @innerHeader_length pfx src (innerLength pfx.family following) sum two
  unfold InnerHeader
  split
  · next ipv4 =>
      simp only [sizeofInner, innerHeader, innerLength, if_pos ipv4] at sized ⊢
      exact ⟨sized, rfl, be16_put16 (show 20 + following < 65536 by omega), rfl⟩
  · next ipv6 =>
      simp only [sizeofInner, innerHeader, innerLength, if_neg ipv6] at sized ⊢
      have version : ((0x6e : Byte) >>> 4).toNat = 6 := by decide
      exact ⟨sized, version, be16_put16 (show following < 65536 by omega), rfl⟩

/-- The message with a single locator is in the format. -/
theorem requestMessage_format
    : RequestFormat (requestMessage (listOf [loc]) pfx nonce) nonce [loc] pfx := by
  generalize payload_eq : requestPayload (requestIrcOf (listOf [loc])) nonce [loc] pfx = payload
  have short : payload.length ≤ 52 := by
    have item := itrItem_length_le loc
    have record := requestItem_length_le pfx
    rw [← payload_eq, requestPayload_length, List.flatMap_singleton]
    omega
  have irc : (requestIrcOf (listOf [loc])).toNat + 1 = [loc].length := by
    rw [requestIrcOf, listOf_count, List.length_singleton]
    decide
  refine ⟨_, _, requestIrcOf (listOf [loc]), rfl, ?_, ?_, irc⟩
  · rw [listOf_nodes, payload_eq, List.length_append]
    exact innerHeader_innerHeader rfl (show 8 + payload.length < 60000 by omega)
  · rw [listOf_nodes, payload_eq]
    exact ⟨rfl, be16_put16 (by decide), be16_put16 (by decide),
      be16_put16 (show 8 + payload.length < 65536 by omega)⟩

-----------------------------------------------------------------------------------------
-- More than one locator
-----------------------------------------------------------------------------------------

/-- A write leaves the bytes beside it. -/
theorem wr_frame {out bs : List Byte} {off i : Nat} (h : wr buf off bs = .ok out)
    (outside : i < off ∨ off + bs.length ≤ i)
    : out[i]? = buf[i]? := by
  unfold wr at h
  split at h
  · next written => cases h; exact overwrite_getElem?_of_outside written outside
  · cases h

/-- Beside the one AFI that the loop writes, what lies in front of the addresses stays as it was;
by induction on the locators.
-/
theorem setItrRlocs_frame {ptr pktlen : Nat} {out : List Byte} {outlen i : Nat}
    (h : setItrRlocs buf ptr pktlen locs = .ok (some (out, outlen)))
    (outside : i < ptr ∨ ptr + 2 ≤ i) (before : i < pktlen + 2)
    : out[i]? = buf[i]? ∧ (pktlen + 2 * locs.length ≤ outlen) := by
  induction locs generalizing buf pktlen with
  | nil =>
      cases h
      exact ⟨rfl, Nat.le_refl _⟩
  | cons loc rest ih =>
      rw [setItrRlocs] at h
      split at h
      · next addr _ =>
          obtain ⟨buf₁, afi, h⟩ := bind_eq_ok.mp h
          obtain ⟨buf₂, address, h⟩ := bind_eq_ok.mp h
          obtain ⟨kept, longer⟩ := ih h (by omega)
          refine ⟨?_, ?_⟩
          · rw [kept, wr_frame address (.inl before), wr_frame afi outside]
          · rw [List.length_cons]
            omega
      · cases h

theorem setRequestRecord_frame {pktlen : Nat} {addr out : List Byte} {outlen i : Nat}
    (h : setRequestRecord buf pktlen pfx addr = .ok (out, outlen)) (before : i < pktlen)
    : out[i]? = buf[i]? := by
  obtain ⟨buf₁, fixed, h⟩ := bind_eq_ok.mp h
  obtain ⟨buf₂, address, h⟩ := bind_eq_ok.mp h
  cases h
  rw [wr_frame address (.inl (by simp only [sizeofLispMapRequestRecord]; omega)),
    wr_frame fixed (.inl before)]

/-- The lengths are all within the headers. -/
theorem setLengths_frame {pktlen : Nat} {out : List Byte} {i : Nat}
    (h : setLengths buf pktlen pfx = .ok out)
    (behind : sizeofLispControl + sizeofIp6Hdr + sizeofUdphdr ≤ i)
    : out[i]? = buf[i]? := by
  have behind' : 52 ≤ i := behind
  unfold setLengths at h
  split at h
  · obtain ⟨buf₁, ipLen, h⟩ := bind_eq_ok.mp h
    obtain ⟨buf₂, uLen, h⟩ := bind_eq_ok.mp h
    obtain ⟨ip, _, h⟩ := bind_eq_ok.mp h
    rw [wr_frame h (.inr (show 14 + 2 ≤ i by omega)),
      wr_frame uLen (.inr (show 28 + 2 ≤ i by omega)),
      wr_frame ipLen (.inr (show 6 + 2 ≤ i by omega))]
  · obtain ⟨buf₁, ipLen, h⟩ := bind_eq_ok.mp h
    rw [wr_frame h (.inr (show 48 + 2 ≤ i by omega)),
      wr_frame ipLen (.inr (show 8 + 2 ≤ i by omega))]

/-- Where the second ITR-RLOC's AFI has its low byte. -/
def secondAfi (fst : Locator) (pfx : Prefix) : Nat :=
  sizeofLispControl + sizeofInner pfx.family + sizeofUdphdr + 14 + (itrItem fst).length + 1

/-- The second ITR-RLOC's AFI keeps what the buffer had in its place. -/
theorem secondAfi_kept {fst snd : Locator} {rest : List Locator} {out : List Byte} {outlen : Nat}
    (h : setLispMapRequest buf (listOf (fst :: snd :: rest)) pfx nonce = .ok (some (out, outlen)))
    (valid : pfx.Valid) (fits : requestSize (fst :: snd :: rest) pfx ≤ buf.length)
    : out[secondAfi fst pfx]? = buf[secondAfi fst pfx]? := by
  obtain ⟨prefixAddr, prefix_eq⟩ := Option.isSome_iff_exists.mp valid.addr_isSome
  have front : (requestFront (listOf (fst :: snd :: rest)) pfx nonce).length ≤ buf.length := by
    simp only [requestSize, requestPayload_length] at fits
    rw [requestFront_length]
    omega
  rw [setLispMapRequest_front prefix_eq front, listOf_nodes] at h
  have start := @requestFront_length (listOf (fst :: snd :: rest)) pfx nonce
  generalize requestFront (listOf (fst :: snd :: rest)) pfx nonce = done at front h start
  obtain ⟨written, rlocs, h⟩ := bind_eq_ok.mp h
  cases written with
  | none => cases h
  | some result =>
      obtain ⟨buf₃, pktlen⟩ := result
      obtain ⟨⟨buf₄, pktlen₄⟩, record, h⟩ := bind_eq_ok.mp h
      obtain ⟨buf₅, lengths, h⟩ := bind_eq_ok.mp h
      cases h
      -- the first locator, then the rest from the second on
      rw [setItrRlocs] at rlocs
      split at rlocs
      · next addr addr_eq =>
          obtain ⟨buf₁, afi, rlocs⟩ := bind_eq_ok.mp rlocs
          obtain ⟨buf₂, address, rlocs⟩ := bind_eq_ok.mp rlocs
          have place : secondAfi fst pfx = done.length + 2 + addr.length + 1 := by
            simp only [secondAfi, itrItem, addr_eq, start, List.length_append, put16_length,
              Option.getD_some]
            omega
          have inner : sizeofIp ≤ sizeofInner pfx.family := by
            unfold sizeofInner
            split <;> decide
          have addrs : 4 ≤ addr.length := by
            rcases familyAddr_eq_some.mp addr_eq with ⟨_, rfl⟩ | ⟨_, rfl⟩ <;> simp
          obtain ⟨kept, longer⟩ := setItrRlocs_frame (i := secondAfi fst pfx) rlocs
            (.inr (by omega)) (by omega)
          rw [List.length_cons] at longer
          rw [setLengths_frame lengths (by
              simp only [sizeofLispControl, sizeofIp6Hdr, sizeofUdphdr, sizeofIp] at *
              omega),
            setRequestRecord_frame record (by omega), kept, wr_frame address (.inr (by omega)),
            wr_frame afi (.inr (by simp only [put16_length]; omega)),
            overlay_getElem?_of_le (by omega)]
      · cases rlocs

/-- The format's second ITR-RLOC has an AFI. -/
theorem secondAfi_format {fst snd : Locator} {rest : List Locator} {msg : List Byte}
    (h : RequestFormat msg nonce (fst :: snd :: rest) pfx)
    : msg[secondAfi fst pfx]? = some (BitVec.ofNat 8 (afToLispafi snd.locAddr.family)) := by
  obtain ⟨ip, udp, irc, rfl, inner, udpHeader, _⟩ := h
  have ipLength : ip.length = sizeofInner pfx.family := by
    unfold InnerHeader at inner
    unfold sizeofInner
    split at inner <;> simp_all [inner.length]
  have lies : LiesAt (lispControl lispEcapCtl ++ ip ++ udp
        ++ requestPayload irc nonce (fst :: snd :: rest) pfx)
      (secondAfi fst pfx - 1) (itrItem snd) := by
    refine ⟨lispControl lispEcapCtl ++ ip ++ udp ++ requestStart irc nonce ++ itrItem fst,
      rest.flatMap itrItem ++ requestItem pfx, ?_, ?_⟩
    · rw [requestPayload_eq]
      simp only [List.flatMap_cons, List.append_assoc]
    · simp only [List.length_append, ipLength, udpHeader.length, requestStart, secondAfi]
      simp [lispControl]
  have read := lies.getElem? (i := 1) (by simp [itrItem]; omega)
  rw [secondAfi, Nat.add_sub_cancel] at read
  rw [secondAfi, read]
  rfl

/-- No AFI of the encoders is 0. -/
theorem afToLispafi_ne_zero (family : Nat) : BitVec.ofNat 8 (afToLispafi family) ≠ 0 := by
  unfold afToLispafi
  split <;> decide

/-- The encoder emits the format, whatever the buffer held, exactly when one locator is
configured.
-/
theorem requestEncoded_iff {size : Nat} (valid : pfx.Valid) (known : ∀ loc ∈ locs, loc.Known)
    (fits : requestSize locs pfx ≤ size)
    : RequestEncoded size locs pfx ↔ locs.length = 1 := by
  constructor
  · intro encoded
    obtain ⟨msg, format, run⟩ := encoded (zeros 8)
    match locs with
    | [] =>
        obtain ⟨_, _, _, _, _, _, irc⟩ := format
        simp at irc
    | [_] => rfl
    | fst :: snd :: rest =>
        obtain ⟨out, out_eq, taken⟩ := run (List.replicate size 0) (by simp)
        have kept := secondAfi_kept out_eq valid (by simpa using fits)
        have afi := secondAfi_format format
        obtain ⟨inside, _⟩ := List.getElem?_eq_some_iff.mp afi
        rw [← taken, List.getElem?_take_of_lt inside, kept] at afi
        have zero := List.eq_of_mem_replicate (List.mem_of_getElem? afi)
        exact absurd zero (afToLispafi_ne_zero _)
  · intro one
    obtain ⟨loc, rfl⟩ := List.length_eq_one_iff.mp one
    intro nonce
    refine ⟨requestMessage (listOf [loc]) pfx nonce, requestMessage_format, ?_⟩
    rintro buf rfl
    refine ⟨_, setLispMapRequest_single valid (known loc (by simp)) fits, ?_⟩
    exact take_overlay _ _

end

/-- Witness: 10.0.0.0/8 with one configured locator. -/
theorem testPrefix_requestEncoded
    : requestSize [testLocator] testPrefix ≤ 1024 ∧ RequestEncoded 1024 [testLocator] testPrefix := by
  have known : ∀ loc ∈ [testLocator], loc.Known := by
    intro loc mem
    obtain rfl := List.mem_singleton.mp mem
    decide
  have fits : requestSize [testLocator] testPrefix ≤ 1024 := by decide
  exact ⟨fits, (requestEncoded_iff (by decide) known fits).mpr rfl⟩

/-- The encoder's result for 10.0.0.0/8 with two locators, from a buffer filled with a byte. -/
def twoLocatorsFrom (byte : Byte) : Except Fault (Option (List Byte)) := do
  let encoded ← setLispMapRequest (List.replicate 128 byte) (listOf [testLocator, testLocator])
    testPrefix (zeros 8)
  return encoded.map fun (out, n) => out.take n

/-- Two locators: the message returned depends on what the buffer held. -/
theorem twoLocators_not_encoded
    : (∀ loc ∈ [testLocator, testLocator], loc.Known) ∧ testPrefix.Valid
      ∧ requestSize [testLocator, testLocator] testPrefix ≤ 128
      ∧ twoLocatorsFrom 0 ≠ twoLocatorsFrom 0xee
      ∧ ¬ RequestEncoded 128 [testLocator, testLocator] testPrefix := by
  have differs : twoLocatorsFrom 0 ≠ twoLocatorsFrom 0xee := by decide +kernel
  refine ⟨?_, by decide, by decide, differs, ?_⟩
  · intro loc mem
    obtain rfl : loc = testLocator := by simpa using mem
    decide
  · intro encoded
    obtain ⟨msg, _, run⟩ := encoded (zeros 8)
    have same (byte : Byte) : twoLocatorsFrom byte = .ok (some msg) := by
      obtain ⟨out, out_eq, taken⟩ := run (List.replicate 128 byte) (by simp)
      simp only [twoLocatorsFrom, out_eq, bind, Except.bind, pure, Except.pure, Option.map_some,
        taken]
    exact differs ((same 0).trans (same 0xee).symm)

end Lixy
