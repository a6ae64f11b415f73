import Lixy.Daemon.StaticImmunity
import Lixy.Messages.ReadBounds

/-! The data path: what the two threads between the tunnel device and the UDP socket put
around a packet and take off it, with the buffers that they use again in every round.
-/

namespace Lixy

open ByteStrings
open LongestPrefix (best)
open EventRuns (run Reachable)

-----------------------------------------------------------------------------------------
-- The LISP header
-----------------------------------------------------------------------------------------

/-- `LISP_EID_DP_BUF_LEN` -/
abbrev lispEidDpBufLen : Nat := 2048

abbrev sizeofLispHdr : Nat := 8
abbrev sizeofSockaddrIn : Nat := 16
abbrev sizeofSockaddrIn6 : Nat := 28

/-- `struct lisp_hdr`; the first byte holds the five flag bits before the unnamed ones. -/
structure LispHdr where
  nFlag : Bool
  lFlag : Bool
  eFlag : Bool
  vFlag : Bool
  iFlag : Bool
  flags : BitVec 3
  lhdrNonce : Bytes 3
  lhdrLocStatus : Bytes 4

/-- The header in memory. -/
def LispHdr.bytes (hdr : LispHdr) : List Byte :=
  (BitVec.ofBool hdr.nFlag ++ BitVec.ofBool hdr.lFlag ++ BitVec.ofBool hdr.eFlag
      ++ BitVec.ofBool hdr.vFlag ++ BitVec.ofBool hdr.iFlag ++ hdr.flags : Byte)
    :: (hdr.lhdrNonce.toList ++ hdr.lhdrLocStatus.toList)

/-- The header that `lisp_dp_tun_thread` puts before every packet. -/
def lhdr : LispHdr :=
  { nFlag := true, lFlag := false, eFlag := false, vFlag := false, iFlag := false, flags := 0
    lhdrNonce := zeros 3, lhdrLocStatus := ⟨put32 1, rfl⟩ }

@[simp]
theorem LispHdr.bytes_length (hdr : LispHdr) : hdr.bytes.length = sizeofLispHdr := by
  simp [LispHdr.bytes]

-----------------------------------------------------------------------------------------
-- The threads
-----------------------------------------------------------------------------------------

/-- `read` or `recv` into a whole buffer: the packet, cut to the buffer's size, over what the
buffer held.
-/
def readInto {n : Nat} (buf : Bytes n) (packet : List Byte) : Bytes n :=
  ⟨overlay buf.toList (packet.take n), by
    rw [overlay_length] <;> simp⟩

/-- `EXTRACT_SALEN` -/
def extractSalen (sa : SockaddrStorage) : Int :=
  if sa.family = afInet then sizeofSockaddrIn
  else if sa.family = afInet6 then sizeofSockaddrIn6
  else -1

/-- What `lisp_dp_tun_thread` sends. -/
inductive Sent
  /-- `sendto` on the tunnel device. -/
  | raw (family : Nat) (dst data : List Byte)
  /-- `sendmsg` on the UDP socket, with the two parts of the vector joined. -/
  | datagram (name : SockaddrStorage) (namelen : Int) (data : List Byte)
deriving DecidableEq

/-- `sendraw`, with the length that the packet's own header tells. -/
def sendraw (packet : List Byte) : Except Fault (Option Sent) := do
  match ((← rd packet 0) >>> 4).toNat with
  | 4 =>
      let dst ← rdBytes packet 16 4
      let data ← rdBytes packet 0 (← rd16 packet 2)
      return some (.raw afInet dst.toList data.toList)
  | 6 =>
      let dst ← rdBytes packet 24 16
      let data ← rdBytes packet 0 ((← rd16 packet 4) + sizeofIp6Hdr)
      return some (.raw afInet6 dst.toList data.toList)
  | _ => return none

/-- The variables that `lisp_dp_tun_thread` keeps from one round to the next. -/
structure DpTunThread where
  buf : Bytes lispEidDpBufLen
  dstprefix : Prefix

/-- The host prefix of the destination in `buf`, by the IP version there. Of an IPv4 address
only `add.sin` is assigned in what the round before left.
-/
def dpDstprefix (buf : List Byte) (stale : Prefix) : Except Fault (Option Prefix) := do
  match ((← rd buf 0) >>> 4).toNat with
  | 4 =>
      let dstprefix ← addrToPrefix afInet buf 16 32 stale
      return some dstprefix
  | 6 =>
      let dstprefix ← addrToPrefix afInet6 buf 24 128 stale
      return some dstprefix
  | _ => return none

/-- The body of the loop in `lisp_dp_tun_thread`, for the packet that `read` returns or its
failure.
-/
def lispDpTunThread (packet : Option (List Byte)) (rib : Maptable) (thread : DpTunThread)
    : Except Fault (DpTunThread × Option Sent) := do
  match packet with
  | none => return (thread, none)
  | some packet =>
      let len := min packet.length lispEidDpBufLen
      let buf := readInto thread.buf packet
      match ← dpDstprefix buf.toList thread.dstprefix with
      | none => return ({ thread with buf }, none)
      | some dstprefix =>
          match ← searchMapnode rib dstprefix with
          | none => return ({ buf, dstprefix }, ← sendraw buf.toList)
          | some (_, mn) =>
              match mn.state with
              | .negative | .queried => return ({ buf, dstprefix }, ← sendraw buf.toList)
              | .active | .static =>
                  let data ← rdBytes buf.toList 0 (len + sizeofLispHdr)
                  return ({ buf, dstprefix },
                    some (.datagram mn.addr (extractSalen mn.addr) (lhdr.bytes ++ data.toList)))
              | .drop => return ({ buf, dstprefix }, none)

/-- The body of the loop in `lisp_dp_thread`: the buffer after `recv`, and the length that is
passed to `write`, a `size_t`.
-/
def lispDpThread (received : Option (List Byte)) (buf : Bytes lispEidDpBufLen)
    : Bytes lispEidDpBufLen × Option (BitVec 64) :=
  match received with
  | none => (buf, none)
  | some received =>
      let len := min received.length lispEidDpBufLen
      (readInto buf received, some (BitVec.ofNat 64 len - BitVec.ofNat 64 sizeofLispHdr))

/-- What `write` takes from behind the header in the buffer of `lisp_dp_thread`. -/
def written (buf : Bytes lispEidDpBufLen) (count : BitVec 64) : Except Fault (List Byte) := do
  let data ← rdBytes buf.toList sizeofLispHdr count.toNat
  return data.toList

/-- One round of `lisp_dp_tun_thread`: what is read, and the table that it meets. -/
abbrev DpRound := Option (List Byte) × Maptable

/-- What a round leaves to the next one. -/
def dpTunStep (thread : DpTunThread) (round : DpRound) : Except Fault DpTunThread := do
  let (thread, _) ← lispDpTunThread round.1 round.2 thread
  return thread

-----------------------------------------------------------------------------------------
-- Destinations
-----------------------------------------------------------------------------------------

/-- The destination is a host prefix of the family that the packet's version names. -/
theorem dpDstprefix_eq_some {buf : List Byte} {stale d : Prefix}
    : dpDstprefix buf stale = .ok (some d)
      ↔ ∃ first, rd buf 0 = .ok first
          ∧ ((first >>> 4).toNat = 4 ∧ addrToPrefix afInet buf 16 32 stale = .ok d
            ∨ (first >>> 4).toNat = 6 ∧ addrToPrefix afInet6 buf 24 128 stale = .ok d) := by
  constructor
  · intro h
    obtain ⟨first, read, h⟩ := bind_eq_ok.mp h
    refine ⟨first, read, ?_⟩
    split at h
    · next version =>
        obtain ⟨_, parsed, h⟩ := bind_eq_ok.mp h
        obtain rfl := Option.some.inj (pure_eq_ok.mp h)
        exact Or.inl ⟨version, parsed⟩
    · next version =>
        obtain ⟨_, parsed, h⟩ := bind_eq_ok.mp h
        obtain rfl := Option.some.inj (pure_eq_ok.mp h)
        exact Or.inr ⟨version, parsed⟩
    · cases pure_eq_ok.mp h
  · rintro ⟨first, read, ⟨version, parsed⟩ | ⟨version, parsed⟩⟩
    · unfold dpDstprefix
      rw [read]
      change (match (first >>> 4).toNat with | 4 => _ | 6 => _ | _ => _) = _
      rw [version]
      exact bind_eq_ok.mpr ⟨d, parsed, rfl⟩
    · unfold dpDstprefix
      rw [read]
      change (match (first >>> 4).toNat with | 4 => _ | 6 => _ | _ => _) = _
      rw [version]
      exact bind_eq_ok.mpr ⟨d, parsed, rfl⟩

/-- The same host prefix, by key, is made of an address whatever the round before left. -/
theorem addrToPrefix_stale {af : Int} {buf : List Byte} {off n : Nat} {d : Prefix}
    (rest : List Byte) (stale other : Prefix) (host : af = afInet ∧ n = 32 ∨ af = afInet6 ∧ n = 128)
    (h : addrToPrefix af buf off n stale = .ok d)
    : ∃ d', addrToPrefix af (buf ++ rest) off n other = .ok d' ∧ d'.key = d.key ∧ d'.Valid := by
  have longer := (confined_addrToPrefix af off n stale).eq_ok h rest
  rcases host with ⟨rfl, rfl⟩ | ⟨rfl, rfl⟩
  · obtain ⟨addr, read, longer⟩ := bind_eq_ok.mp longer
    obtain rfl := pure_eq_ok.mp longer
    refine ⟨{ family := afInet, bitlen := 32, refCount := 0, add := setSin addr other.add }, ?_,
      ?_, Or.inl ⟨rfl, Nat.le_refl 32⟩⟩
    · exact bind_eq_ok.mpr ⟨addr, read, rfl⟩
    · exact bits_setSin addr other.add stale.add (Nat.le_refl 32)
  · refine ⟨d, longer, rfl, ?_⟩
    obtain ⟨addr, read, longer⟩ := bind_eq_ok.mp longer
    obtain rfl := pure_eq_ok.mp longer
    exact Or.inr ⟨rfl, Nat.le_refl 128⟩

/-- The destination of a packet that holds it is found in the buffer too, whatever lies
behind the packet there.
-/
theorem dpDstprefix_stale {p : List Byte} {d : Prefix} (rest : List Byte) (stale other : Prefix)
    (h : dpDstprefix p stale = .ok (some d))
    : ∃ d', dpDstprefix (p ++ rest) other = .ok (some d') ∧ d'.key = d.key ∧ d'.Valid := by
  obtain ⟨first, read, h⟩ := dpDstprefix_eq_some.mp h
  have read' := (confined_rd 0).eq_ok read rest
  rcases h with ⟨version, parsed⟩ | ⟨version, parsed⟩
  · obtain ⟨d', parsed', same⟩ :=
      addrToPrefix_stale rest stale other (Or.inl ⟨rfl, rfl⟩) parsed
    exact ⟨d', dpDstprefix_eq_some.mpr ⟨first, read', Or.inl ⟨version, parsed'⟩⟩, same⟩
  · obtain ⟨d', parsed', same⟩ :=
      addrToPrefix_stale rest stale other (Or.inr ⟨rfl, rfl⟩) parsed
    exact ⟨d', dpDstprefix_eq_some.mpr ⟨first, read', Or.inr ⟨version, parsed'⟩⟩, same⟩

-----------------------------------------------------------------------------------------
-- What the buffer holds
-----------------------------------------------------------------------------------------

theorem readInto_toList {n : Nat} (buf : Bytes n) (packet : List Byte)
    : (readInto buf packet).toList = overlay buf.toList (packet.take n) := rfl

/-- Byte `i` of a buffer that the packets were read into one after the other: that of the last
packet that reaches so far, or else the one at the start.
-/
def heldByte (start : List Byte) (packets : List (Option (List Byte))) (i : Nat) : Option Byte :=
  packets.foldl (fun byte packet => (packet.bind (·[i]?)).or byte) start[i]?

/-- A round leaves the packet over what the buffer held. -/
theorem dpTunStep_buf {thread next : DpTunThread} {round : DpRound}
    (done : dpTunStep thread round = .ok next)
    : next.buf = match round.1 with
        | none => thread.buf
        | some packet => readInto thread.buf packet := by
  obtain ⟨packet, rib⟩ := round
  obtain ⟨⟨after, sent⟩, body, done⟩ := bind_eq_ok.mp done
  obtain rfl := pure_eq_ok.mp done
  cases packet with
  | none =>
      obtain ⟨rfl, _⟩ := Prod.mk.inj (pure_eq_ok.mp body)
      rfl
  | some packet =>
      obtain ⟨found, _, body⟩ := bind_eq_ok.mp body
      split at body
      · obtain ⟨rfl, _⟩ := Prod.mk.inj (pure_eq_ok.mp body)
        rfl
      · obtain ⟨hit, _, body⟩ := bind_eq_ok.mp body
        split at body
        · obtain ⟨_, _, body⟩ := bind_eq_ok.mp body
          obtain ⟨rfl, _⟩ := Prod.mk.inj (pure_eq_ok.mp body)
          rfl
        · split at body
          all_goals first
            | obtain ⟨rfl, _⟩ := Prod.mk.inj (pure_eq_ok.mp body)
              rfl
            | obtain ⟨_, _, body⟩ := bind_eq_ok.mp body
              obtain ⟨rfl, _⟩ := Prod.mk.inj (pure_eq_ok.mp body)
              rfl

/-- After any rounds the buffer holds the last packets that reach so far, by induction on the
rounds.
-/
theorem dpTunRun_buf {start thread : DpTunThread} {earlier : List DpRound} {i : Nat}
    (inside : i < lispEidDpBufLen) (done : run dpTunStep start earlier = .ok thread)
    : thread.buf.toList[i]? = heldByte start.buf.toList (earlier.map Prod.fst) i := by
  induction earlier generalizing start with
  | nil =>
      obtain rfl : start = thread := Except.ok.inj done
      rfl
  | cons round rest ih =>
      obtain ⟨next, first, done⟩ := EventRuns.run_cons_eq_ok.mp done
      have here : next.buf.toList[i]? = (round.1.bind (·[i]?)).or start.buf.toList[i]? := by
        rw [dpTunStep_buf first]
        cases round.1 with
        | none => rfl
        | some packet =>
            change (readInto start.buf packet).toList[i]? = _
            rw [readInto_toList, overlay_getElem?, List.getElem?_take_of_lt inside]
            rfl
      rw [ih done, heldByte, here]
      rfl

-----------------------------------------------------------------------------------------
-- Encapsulation
-----------------------------------------------------------------------------------------

/-- The destination of a packet resolves to an ACTIVE or STATIC entry. -/
def Resolved (rib : Maptable) (p : List Byte) : Prop :=
  ∃ d pn mn, dpDstprefix p .zero = .ok (some d) ∧ searchMapnode rib d = .ok (some (pn, mn))
    ∧ (mn.state = .active ∨ mn.state = .static)

/-- The round that reads `p` sends the datagram `data`. -/
def Encapsulates (rib : Maptable) (thread : DpTunThread) (p data : List Byte) : Prop :=
  ∃ next name namelen,
    lispDpTunThread (some p) rib thread = .ok (next, some (.datagram name namelen data))

/-- A search depends on the key only, as to the mapnode that it finds. -/
theorem searchMapnode_key {table : Maptable} {d d' : Prefix} {pn : Loc Mapnode} {mn : Mapnode}
    (ok : TableOk table) (short : d.bitlen ≤ 128) (same : d'.key = d.key)
    (found : searchMapnode table d = .ok (some (pn, mn)))
    : ∃ pn', searchMapnode table d' = .ok (some (pn', mn)) := by
  have bitlen : d'.bitlen = d.bitlen := by
    rw [← d.key_length, ← d'.key_length, same]
  rcases searchMapnode_spec ok short with ⟨_, missed⟩ | ⟨e, _, best, hit, _⟩
  · cases missed.symm.trans found
  · obtain ⟨_, rfl⟩ := Prod.mk.inj (Option.some.inj (Except.ok.inj (hit.symm.trans found)))
    rcases searchMapnode_spec ok (bitlen ▸ short) with ⟨missed, _⟩ | ⟨e', z, best', hit', _⟩
    · rw [same] at missed
      cases missed.symm.trans best
    · rw [same] at best'
      obtain rfl : e' = e := (Prod.mk.inj (Option.some.inj (best'.symm.trans best))).2
      exact ⟨z, hit'⟩

/-- A resolved packet is sent behind the header, together with the eight bytes that the buffer
holds behind it.
-/
theorem encapsulates_surplus {rib : Maptable} {thread : DpTunThread} {p : List Byte}
    (ok : TableOk rib) (fits : p.length ≤ lispEidDpBufLen - sizeofLispHdr)
    (resolved : Resolved rib p)
    : Encapsulates rib thread p
        (lhdr.bytes ++ p ++ (thread.buf.toList.drop p.length).take sizeofLispHdr) := by
  obtain ⟨d, pn, mn, parsed, found, state⟩ := resolved
  have room : p.length + sizeofLispHdr ≤ 2048 := by
    have : p.length ≤ 2040 := fits
    change p.length + 8 ≤ 2048
    omega
  have len : min p.length lispEidDpBufLen = p.length :=
    Nat.min_eq_left (Nat.le_of_add_right_le room)
  have held : (readInto thread.buf p).toList = overlay thread.buf.toList p := by
    rw [readInto_toList, List.take_of_length_le (Nat.le_of_add_right_le room)]
  obtain ⟨d', parsed', key, valid⟩ :=
    dpDstprefix_stale (thread.buf.toList.drop p.length) .zero thread.dstprefix parsed
  have short : d.bitlen ≤ 128 := by
    rw [← d.key_length, ← key, d'.key_length]
    exact valid.bitlen_le
  obtain ⟨pn', found'⟩ := searchMapnode_key ok short key found
  obtain ⟨data, read, surplus⟩ : ∃ data,
      rdBytes (readInto thread.buf p).toList 0 (min p.length lispEidDpBufLen + sizeofLispHdr)
        = .ok data
        ∧ data.toList = p ++ (thread.buf.toList.drop p.length).take sizeofLispHdr := by
    rw [len, held]
    obtain ⟨data, read, surplus⟩ :=
      slice_overlay thread.buf.toList p (by rw [List.Vector.toList_length]; exact room)
    exact ⟨data, rdBytes_eq_ok.mpr read, surplus⟩
  refine ⟨⟨readInto thread.buf p, d'⟩, mn.addr, extractSalen mn.addr, ?_⟩
  rw [List.append_assoc, ← surplus]
  refine bind_eq_ok.mpr ⟨some d', by rw [held]; exact parsed', ?_⟩
  refine bind_eq_ok.mpr ⟨_, found', ?_⟩
  rcases state with state | state
  · simp only [state]
    exact bind_eq_ok.mpr ⟨data, read, rfl⟩
  · simp only [state]
    exact bind_eq_ok.mpr ⟨data, read, rfl⟩

-----------------------------------------------------------------------------------------
-- Decapsulation
-----------------------------------------------------------------------------------------

section

variable {received : List Byte} {buf buf' : Bytes lispEidDpBufLen} {count : BitVec 64}

/-- The length that `lisp_dp_thread` passes to `write` is what it received less the header, or
wraps around where that is less than the header.
-/
theorem lispDpThread_count (done : lispDpThread (some received) buf = (buf', some count))
    : buf' = readInto buf received
      ∧ (sizeofLispHdr ≤ received.length
        → count.toNat = min received.length lispEidDpBufLen - sizeofLispHdr)
      ∧ (received.length < sizeofLispHdr
        → count.toNat = 2 ^ 64 - sizeofLispHdr + received.length) := by
  obtain ⟨rfl, passed⟩ := Prod.mk.inj done
  obtain rfl := Option.some.inj passed
  refine ⟨rfl, ?_, ?_⟩
  · intro long
    have long : 8 ≤ received.length := long
    change (BitVec.ofNat 64 (min received.length 2048) - BitVec.ofNat 64 8).toNat
      = min received.length 2048 - 8
    rw [BitVec.toNat_sub, BitVec.toNat_ofNat, BitVec.toNat_ofNat]
    omega
  · intro short
    have short : received.length < 8 := short
    change (BitVec.ofNat 64 (min received.length 2048) - BitVec.ofNat 64 8).toNat
      = 2 ^ 64 - 8 + received.length
    rw [BitVec.toNat_sub, BitVec.toNat_ofNat, BitVec.toNat_ofNat]
    omega

/-- The length is right, and no more than what was received, exactly when the datagram is as
long as the header.
-/
theorem lispDpThread_count_iff (done : lispDpThread (some received) buf = (buf', some count))
    : (count.toNat = min received.length lispEidDpBufLen - sizeofLispHdr
          ∧ count.toNat ≤ min received.length lispEidDpBufLen)
        ↔ sizeofLispHdr ≤ received.length := by
  obtain ⟨_, long, short⟩ := lispDpThread_count done
  constructor
  · rintro ⟨_, le⟩
    by_contra less
    have wrapped : count.toNat = 2 ^ 64 - 8 + received.length := short (Nat.lt_of_not_le less)
    have : count.toNat ≤ 2048 := Nat.le_trans le (Nat.min_le_right _ _)
    omega
  · intro enough
    have right := long enough
    exact ⟨right, right ▸ Nat.sub_le _ _⟩

/-- Of a datagram that holds a header, what lies behind the header is written, as far as the
buffer reaches.
-/
theorem written_eq {hdr data : List Byte} (header : hdr.length = sizeofLispHdr)
    (done : lispDpThread (some (hdr ++ data)) buf = (buf', some count))
    : written buf' count = .ok (data.take (lispEidDpBufLen - sizeofLispHdr)) := by
  obtain ⟨rfl, long, _⟩ := lispDpThread_count done
  have size : count.toNat = min (8 + data.length) 2048 - 8 := by
    rw [long (by rw [List.length_append, header]; exact Nat.le_add_right _ _),
      List.length_append, header]
  have cut : (hdr ++ data).take lispEidDpBufLen
      = hdr ++ data.take (lispEidDpBufLen - sizeofLispHdr) := by
    rw [List.take_append, header, List.take_of_length_le (by rw [header]; decide)]
  have lies : LiesAt (readInto buf (hdr ++ data)).toList sizeofLispHdr
      (data.take (lispEidDpBufLen - sizeofLispHdr)) :=
    ⟨hdr, _, by rw [readInto_toList, cut, overlay], header⟩
  have length : (data.take (lispEidDpBufLen - sizeofLispHdr)).length = count.toNat := by
    rw [size, List.length_take]
    change min 2040 data.length = _
    omega
  exact bind_eq_ok.mpr ⟨_, rdBytes_eq_ok.mpr (lies.slice length), rfl⟩

end

-----------------------------------------------------------------------------------------
-- Both ends
-----------------------------------------------------------------------------------------

/-- One round sends one datagram. -/
theorem Encapsulates.unique {rib : Maptable} {thread : DpTunThread} {p data data' : List Byte}
    (h : Encapsulates rib thread p data) (h' : Encapsulates rib thread p data')
    : data = data' := by
  obtain ⟨_, _, _, sent⟩ := h
  obtain ⟨_, _, _, sent'⟩ := h'
  have same := Option.some.inj (Prod.mk.inj (Except.ok.inj (sent.symm.trans sent'))).2
  injection same

/-- A whole buffer of one byte that names no IP version is read and not sent. -/
theorem dpTunStep_fill (thread : DpTunThread) (rib : Maptable) {b : Byte} (other : b >>> 4 = 0)
    : dpTunStep thread (some (List.replicate lispEidDpBufLen b), rib)
      = .ok { thread with buf := List.Vector.replicate lispEidDpBufLen b } := by
  have filled : readInto thread.buf (List.replicate lispEidDpBufLen b)
      = List.Vector.replicate lispEidDpBufLen b := by
    apply List.Vector.eq
    rw [readInto_toList, List.take_of_length_le (by simp), overlay,
      List.drop_of_length_le (by simp)]
    exact List.append_nil _
  have skipped : dpDstprefix (List.replicate lispEidDpBufLen b) thread.dstprefix = .ok none := by
    refine bind_eq_ok.mpr ⟨b, rfl, ?_⟩
    rw [other]
    rfl
  refine bind_eq_ok.mpr ⟨({ thread with buf := List.Vector.replicate lispEidDpBufLen b }, none),
    ?_, rfl⟩
  refine bind_eq_ok.mpr ⟨none, by rw [filled]; exact skipped, ?_⟩
  rw [filled]
  rfl

/-- Another packet before `p` has another datagram sent for it: one round is enough to leave
bytes in the buffer that differ from any given ones.
-/
theorem encapsulates_otherwise {rib : Maptable} (start : DpTunThread) {p surplus : List Byte}
    (ok : TableOk rib) (fits : p.length ≤ lispEidDpBufLen - sizeofLispHdr)
    (resolved : Resolved rib p)
    : ∃ other thread data, run dpTunStep start other = .ok thread
        ∧ Encapsulates rib thread p data ∧ data ≠ lhdr.bytes ++ p ++ surplus := by
  obtain ⟨b, nameless, fresh⟩ : ∃ b : Byte, b >>> 4 = 0 ∧ surplus[0]? ≠ some b := by
    by_cases zero : surplus[0]? = some 0
    · exact ⟨1, rfl, by rw [zero]; decide⟩
    · exact ⟨0, rfl, zero⟩
  let thread : DpTunThread := { start with buf := List.Vector.replicate lispEidDpBufLen b }
  have filled := dpTunStep_fill start rib nameless
  refine ⟨[(some (List.replicate lispEidDpBufLen b), rib)], thread, _,
    EventRuns.run_cons_eq_ok.mpr ⟨thread, filled, rfl⟩, encapsulates_surplus ok fits resolved, ?_⟩
  intro same
  have surplus_eq := List.append_cancel_left same
  have first : (((thread.buf.toList.drop p.length).take sizeofLispHdr)[0]?) = some b := by
    have inside : p.length < lispEidDpBufLen := Nat.lt_of_le_of_lt fits (by decide)
    rw [List.getElem?_take_of_lt (by decide), List.getElem?_drop, Nat.add_zero]
    exact List.getElem?_replicate_of_lt inside
  rw [surplus_eq] at first
  exact fresh first

/-- No packet is sent as the header and itself: eight bytes follow that the buffer holds from
the packets before, and they are written at the other end unless they fall behind the end of
its buffer. The length of a write is right exactly for datagrams as long as the header.
-/
theorem dataPath_surplus (lisp : Lisp) (start thread : DpTunThread) (earlier : List DpRound)
    (p received : List Byte) (buf buf' : Bytes lispEidDpBufLen) (count : BitVec 64)
    : (Reachable step Lisp.start lisp → run dpTunStep start earlier = .ok thread
          → p.length ≤ lispEidDpBufLen - sizeofLispHdr → Resolved lisp.rib p
        → ¬ Encapsulates lisp.rib thread p (lhdr.bytes ++ p)
          ∧ ∃ surplus : List Byte, surplus.length = sizeofLispHdr
            ∧ (∀ k < sizeofLispHdr, surplus[k]?
                = heldByte start.buf.toList (earlier.map Prod.fst) (p.length + k))
            ∧ Encapsulates lisp.rib thread p (lhdr.bytes ++ p ++ surplus)
            ∧ (∃ other thread' data, run dpTunStep start other = .ok thread'
                ∧ Encapsulates lisp.rib thread' p data ∧ data ≠ lhdr.bytes ++ p ++ surplus)
            ∧ (lispDpThread (some (lhdr.bytes ++ p ++ surplus)) buf = (buf', some count)
              → (written buf' count = .ok p ↔ p.length = lispEidDpBufLen - sizeofLispHdr)))
      ∧ (lispDpThread (some received) buf = (buf', some count)
        → ((count.toNat = min received.length lispEidDpBufLen - sizeofLispHdr
              ∧ count.toNat ≤ min received.length lispEidDpBufLen)
            ↔ sizeofLispHdr ≤ received.length)) := by
  refine ⟨?_, lispDpThread_count_iff⟩
  intro reachable ran fits resolved
  have ok := tableOk_of_reachable reachable
  have room : p.length + 8 ≤ 2048 := by
    have : p.length ≤ 2040 := fits
    omega
  have sent := @encapsulates_surplus _ thread _ ok fits resolved
  have length : ((thread.buf.toList.drop p.length).take sizeofLispHdr).length = sizeofLispHdr := by
    rw [List.length_take, List.length_drop, List.Vector.toList_length]
    change min 8 (2048 - p.length) = 8
    omega
  have held (k : Nat) (lt : k < sizeofLispHdr)
      : ((thread.buf.toList.drop p.length).take sizeofLispHdr)[k]?
        = heldByte start.buf.toList (earlier.map Prod.fst) (p.length + k) := by
    have lt : k < 8 := lt
    rw [List.getElem?_take_of_lt lt, List.getElem?_drop]
    exact dpTunRun_buf (by change _ < 2048; omega) ran
  generalize (thread.buf.toList.drop p.length).take sizeofLispHdr = surplus at sent length held
  refine ⟨?_, surplus, length, held, sent, ?_, ?_⟩
  · intro clean
    have same := congrArg List.length (clean.unique sent)
    rw [@List.length_append _ (lhdr.bytes ++ p), length] at same
    exact absurd same (by change _ ≠ _ + 8; omega)
  · exact encapsulates_otherwise start ok fits resolved
  · intro done
    rw [List.append_assoc] at done
    rw [written_eq lhdr.bytes_length done]
    constructor
    · intro same
      have same := congrArg List.length (Except.ok.inj same)
      rw [List.length_take, List.length_append, length] at same
      have same : min 2040 (p.length + 8) = p.length := same
      change p.length = 2040
      omega
    · intro full
      rw [← full, List.take_left' rfl]

/-- An IPv4 header for a packet from 192.168.0.1 to 10.0.0.1. -/
def tenInner : List Byte :=
  [0x45, 0, 0, 20, 0, 0, 0, 0, 64, 17, 0, 0, 192, 168, 0, 1, 10, 0, 0, 1]

/-- `lisp_dp_tun_thread` before its first round, on a stack of zeros. -/
def zeroThread : DpTunThread := { buf := zeros lispEidDpBufLen, dstprefix := .zero }

/-- With a static route for 10.0.0.0/8 the packet is sent with bytes that are not its own. -/
theorem tenInner_surplus
    : ∃ lisp surplus, run step Lisp.start [.installRoute tenNet .zero] = .ok lisp
        ∧ surplus.length = 8
        ∧ Encapsulates lisp.rib zeroThread tenInner (lhdr.bytes ++ tenInner ++ surplus)
        ∧ ¬ Encapsulates lisp.rib zeroThread tenInner (lhdr.bytes ++ tenInner) := by
  obtain ⟨lisp, installed, resolved⟩
      : ∃ lisp, run step Lisp.start [.installRoute tenNet .zero] = .ok lisp
        ∧ Resolved lisp.rib tenInner :=
    ⟨_, rfl, _, _, _, rfl, rfl, Or.inr rfl⟩
  obtain ⟨unclean, surplus, length, _, sent, _⟩ :=
    (dataPath_surplus lisp zeroThread zeroThread [] tenInner [] (zeros _) (zeros _) 0).1
      ⟨_, installed⟩ rfl (by decide) resolved
  exact ⟨lisp, surplus, installed, length, sent, unclean⟩

/-- The two threads do not undo each other for that packet. -/
theorem tenInner_not_exact
    : ¬ ((∀ (lisp : Lisp) (start thread : DpTunThread) (earlier : List DpRound) (p : List Byte),
          Reachable step Lisp.start lisp → run dpTunStep start earlier = .ok thread
            → p.length ≤ lispEidDpBufLen - sizeofLispHdr → Resolved lisp.rib p
            → Encapsulates lisp.rib thread p (lhdr.bytes ++ p)
              ∧ ∀ buf buf' count, lispDpThread (some (lhdr.bytes ++ p)) buf = (buf', some count)
                  → written buf' count = .ok p)
        ∧ ∀ (received : List Byte) (buf buf' : Bytes lispEidDpBufLen) (count : BitVec 64),
            lispDpThread (some received) buf = (buf', some count)
            → count.toNat = min received.length lispEidDpBufLen - sizeofLispHdr
              ∧ count.toNat ≤ min received.length lispEidDpBufLen) := by
  rintro ⟨undoes, _⟩
  obtain ⟨lisp, installed, resolved⟩
      : ∃ lisp, run step Lisp.start [.installRoute tenNet .zero] = .ok lisp
        ∧ Resolved lisp.rib tenInner :=
    ⟨_, rfl, _, _, _, rfl, rfl, Or.inr rfl⟩
  have reachable : Reachable step Lisp.start lisp := ⟨_, installed⟩
  have fits : tenInner.length ≤ lispEidDpBufLen - sizeofLispHdr := by decide
  have clean := (undoes lisp zeroThread zeroThread [] tenInner reachable rfl fits resolved).1
  have sent := @encapsulates_surplus _ zeroThread _ (tableOk_of_reachable reachable) fits resolved
  have same := congrArg List.length (clean.unique sent)
  revert same
  decide

end Lixy
