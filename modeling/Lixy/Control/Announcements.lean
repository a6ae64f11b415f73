import Lixy.Control.DaemonRuns

/-! What the daemon announces of its configuration: in every state it comes to, a message that an
encoder returns is whole, and counts the locators that it carries.
-/

namespace Lixy.Control

open ByteStrings
open EventRuns (run Reachable)

-----------------------------------------------------------------------------------------
-- The configuration
-----------------------------------------------------------------------------------------

/-- What the encoders rely on: locators of known families, rightly counted, and valid prefixes. -/
structure Lixyd.Presentable (st : Lixyd) : Prop where
  known : ∀ loc ∈ st.locTuple.nodes, loc.Known
  counted : st.locTuple.Counted
  valid : ∀ eid ∈ st.eidTuple.nodes, ∀ pfx ∈ eid.prefixTuple.nodes, pfx.Valid

theorem presentable_start : Lixyd.start.Presentable := ⟨nofun, counted_createList, nofun⟩

/-- A prefix of the list as it is changed was there, or is the one added. -/
theorem PrefixChange.valid {list list' : ListT Prefix} (h : PrefixChange list list')
    (inv : ∀ pfx ∈ list.nodes, pfx.Valid)
    : ∀ pfx ∈ list'.nodes, pfx.Valid := by
  cases h with
  | kept => exact inv
  | added pfx valid absent =>
      intro other mem
      rcases List.mem_append.mp mem with mem | mem
      · exact inv other mem
      · obtain rfl := List.mem_singleton.mp mem
        exact valid
  | dropped place => exact fun pfx mem => inv pfx ((deleteListnode_sublist list place).mem mem)

/-- What one command keeps. -/
theorem Change.presentable {st st' : Lixyd} (h : Change st st') (inv : st.Presentable)
    : st'.Presentable := by
  obtain ⟨known, counted, valid⟩ := inv
  cases h with
  | routes lisp => exact ⟨known, counted, valid⟩
  | serverAdded mapsrv => exact ⟨known, counted, valid⟩
  | serverDropped place => exact ⟨known, counted, valid⟩
  | locatorAdded res loc copied absent =>
      refine ⟨fun other mem => ?_, counted.append loc, valid⟩
      rcases List.mem_append.mp mem with mem | mem
      · exact known other mem
      · obtain rfl := List.mem_singleton.mp mem
        rw [Locator.Known, copied, (denotes_copyTo res .zero).2]
        rfl
  | locatorDropped place =>
      exact ⟨fun loc mem => known loc ((deleteListnode_sublist st.locTuple place).mem mem),
        counted.delete place, valid⟩
  | locatorSet place loc there param value =>
      refine ⟨fun other mem => ?_, counted.write place _, valid⟩
      rcases List.mem_or_eq_of_mem_set mem with mem | rfl
      · exact known other mem
      · rw [Locator.Known, locAddr_setParam]
        exact known loc (List.mem_of_getElem? there)
  | eidAdded name absent =>
      refine ⟨known, counted, fun eid mem => ?_⟩
      rcases List.mem_append.mp mem with mem | mem
      · exact valid eid mem
      · obtain rfl := List.mem_singleton.mp mem
        exact fun _ inside => absurd inside List.not_mem_nil
  | eidDropped place =>
      exact ⟨known, counted,
        fun eid mem => valid eid ((deleteListnode_sublist st.eidTuple place).mem mem)⟩
  | eidWritten place eid eid' there name change =>
      refine ⟨known, counted, fun other mem => ?_⟩
      rcases List.mem_or_eq_of_mem_set mem with mem | rfl
      · exact valid other mem
      · exact change.valid (valid eid (List.mem_of_getElem? there))

/-- A turn changes the configuration as a command does, if at all. -/
theorem daemonStep_change {lib : Library} {st st' : Lixyd} {turn : Turn}
    (done : daemonStep lib st turn = .ok st')
    : Change st st' := by
  cases turn with
  | op junk msg =>
      obtain ⟨⟨res, after⟩, answered, done⟩ := bind_eq_ok.mp done
      obtain rfl := pure_eq_ok.mp done
      obtain ⟨words, split, answered⟩ := bind_eq_ok.mp answered
      cases words with
      | none => exact changes_answer .kept res after answered
      | some words => exact execCommand_changes lib junk (words[·]?) st res after answered
  | mapMessage len buf =>
      obtain ⟨lisp, _, done⟩ := bind_eq_ok.mp done
      obtain rfl := pure_eq_ok.mp done
      exact .routes lisp
  | rawPacket frame =>
      obtain ⟨lisp, _, done⟩ := bind_eq_ok.mp done
      obtain rfl := pure_eq_ok.mp done
      exact .routes lisp
  | maptable =>
      obtain ⟨w, _, done⟩ := bind_eq_ok.mp done
      obtain rfl := pure_eq_ok.mp done
      exact .routes w.st

theorem presentable_of_reachable {lib : Library} {st : Lixyd}
    (reachable : Reachable (daemonStep lib) .start st)
    : st.Presentable :=
  reachable.invariant (fun _ _ _ inv done => (daemonStep_change done).presentable inv)
    presentable_start

-----------------------------------------------------------------------------------------
-- Messages in a buffer
-----------------------------------------------------------------------------------------

section

variable {locs : List Locator} {locTuple : ListT Locator} {pfx : Prefix}

/-- A locator's item has its fixed part and an address. -/
theorem locatorItem_known {loc : Locator} (known : loc.Known)
    : ∃ addr, loc.locAddr.addr = some addr ∧ 4 ≤ addr.length
        ∧ (locatorItem loc).length = sizeofLispLocator + addr.length := by
  obtain ⟨addr, addr_eq⟩ := Option.isSome_iff_exists.mp known
  refine ⟨addr, addr_eq, ?_, by simp [locatorItem, addr_eq]⟩
  rcases familyAddr_eq_some.mp addr_eq with ⟨_, rfl⟩ | ⟨_, rfl⟩ <;> simp

/-- Locators of known families take the room of their items, by induction on them. -/
theorem locatorsRoom_known (known : ∀ loc ∈ locs, loc.Known)
    : locatorsRoom locs = (locs.flatMap locatorItem).length ∧ 12 * locs.length ≤ locatorsRoom locs
    := by
  induction locs with
  | nil => exact ⟨rfl, Nat.le_refl 0⟩
  | cons loc rest ih =>
      obtain ⟨addr, addr_eq, long, item⟩ := locatorItem_known (known loc List.mem_cons_self)
      obtain ⟨room, many⟩ := ih fun other mem => known other (List.mem_cons_of_mem _ mem)
      rw [locatorsRoom, addr_eq, List.flatMap_cons, List.length_append, item, List.length_cons]
      simp only [sizeofLispLocator]
      omega

/-- Where the locators of a record fit in a message buffer, their count fits in its byte. -/
theorem recordCount_eq (known : ∀ loc ∈ locTuple.nodes, loc.Known) (counted : locTuple.Counted)
    (fits : locatorsRoom locTuple.nodes ≤ lispMsgBufLen)
    : (BitVec.ofNat 8 locTuple.count.toNat).toNat = locTuple.nodes.length := by
  have many := (locatorsRoom_known known).2
  simp only [lispMsgBufLen] at fits
  rw [counted, BitVec.toNat_ofNat, BitVec.toNat_ofNat]
  omega

theorem mapReplyMessage_length (known : ∀ loc ∈ locTuple.nodes, loc.Known) (nonce : Bytes 8)
    : (mapReplyMessage locTuple pfx nonce).length = replyRoom locTuple.nodes pfx := by
  rw [mapReplyMessage, List.length_append, List.length_append, mapReplyHeader_length, recordItem,
    List.length_append, lispRecord_length, replyRoom, recordRoom, (locatorsRoom_known known).1]
  simp only [sizeofLispMapReply]
  omega

theorem mapRegisterMessage_length (known : ∀ loc ∈ locTuple.nodes, loc.Known) (nonce : Bytes 8)
    (auth : Bytes shaDigestLength)
    : (mapRegisterMessage locTuple pfx nonce auth).length = registerRoom locTuple.nodes pfx := by
  rw [mapRegisterMessage, List.length_append, List.length_append, mapRegisterHeader_length,
    recordItem, List.length_append, lispRecord_length, registerRoom, recordRoom,
    (locatorsRoom_known known).1]
  simp only [sizeofLispMapRegister]
  omega

end

/-- An encoder that returns has its room. -/
theorem room_of_builds {complete printed : Prop} {room len : Nat} {post : List Byte → Prop}
    {x : Except Fault Encoded} {encoded : Encoded}
    (builds : Builds complete printed room len post x) (done : x = .ok encoded)
    : room ≤ len := by
  refine Nat.not_lt.mp fun past => ?_
  obtain ⟨off, overrun⟩ := builds.overruns past
  cases done.symm.trans overrun

/-- What an encoder returns takes up its room, in a buffer of the same length. -/
theorem sized_of_builds {complete printed : Prop} {room len n : Nat} {post : List Byte → Prop}
    {x : Except Fault Encoded} {out : List Byte}
    (builds : Builds complete printed room len post x) (done : x = .ok (some (out, n)))
    : out.length = len ∧ n = room := by
  have fits := room_of_builds builds done
  obtain ⟨out', returned, sized, _⟩ :=
    builds.returns fits (builds.complete_of_returned fits done)
  obtain ⟨rfl, rfl⟩ := Prod.mk.inj (Option.some.inj (Except.ok.inj (done.symm.trans returned)))
  exact ⟨sized, rfl⟩

-----------------------------------------------------------------------------------------
-- What is announced
-----------------------------------------------------------------------------------------

/-- The encoder returned all the message, with the number of the locators at `counter`. -/
def Whole (encoded : Encoded) (message : List Byte) (counter : Nat) (locs : List Locator)
    : Prop :=
  ∃ out, encoded = some (out, message.length) ∧ out.take message.length = message
    ∧ (byteAt out counter).toNat = locs.length

section

variable {st : Lixyd} {pfx : Prefix} {encoded : Encoded}

/-- A Map-Reply that is returned is whole. -/
theorem Lixyd.Presentable.mapReply (inv : st.Presentable) {buf : Bytes lispMsgBufLen}
    {nonce : Bytes 8} (done : setLispMapReply buf.toList st.locTuple pfx nonce = .ok encoded)
    : Whole encoded (mapReplyMessage st.locTuple pfx nonce) 16 st.locTuple.nodes := by
  have builds := @setLispMapReply_builds buf.toList st.locTuple pfx nonce
  have room := room_of_builds builds done
  have sized : (mapReplyMessage st.locTuple pfx nonce).length ≤ buf.toList.length :=
    mapReplyMessage_length inv.known nonce ▸ room
  have whole := setLispMapReply_eq inv.known sized
  obtain ⟨out, returned, _, count⟩ := builds.returns room inv.known
  obtain rfl := Except.ok.inj (done.symm.trans whole)
  obtain ⟨rfl, _⟩ := Prod.mk.inj (Option.some.inj (Except.ok.inj (whole.symm.trans returned)))
  refine ⟨_, rfl, take_overlay _ _, ?_⟩
  rw [byteAt_of_getElem? count]
  refine recordCount_eq inv.known inv.counted ?_
  rw [buf.toList_length, replyRoom, recordRoom] at room
  omega

/-- A Map-Register is only returned for a key that ends. -/
theorem key_ends_of_done {hmacSha1 : List Byte → List Byte → Bytes shaDigestLength}
    {buf key : List Byte} {locTuple : ListT Locator} {nonce : Bytes 8}
    (known : ∀ loc ∈ locTuple.nodes, loc.Known)
    (done : setLispMapRegister hmacSha1 buf locTuple pfx key nonce = .ok encoded)
    : 0 ∈ key := by
  obtain ⟨buf₁, header, done⟩ := bind_eq_ok.mp done
  obtain ⟨⟨buf₂, pktlen⟩, record, done⟩ := bind_eq_ok.mp done
  obtain ⟨buf₃, drawn, done⟩ := bind_eq_ok.mp done
  obtain ⟨located, locators, done⟩ := bind_eq_ok.mp done
  have inside : 0 < pktlen ∧ pktlen ≤ buf₃.length := by
    rw [(wr_ok drawn).2.1]
    obtain ⟨buf', fixed, record⟩ := bind_eq_ok.mp record
    split at record
    · obtain ⟨buf'', address, record⟩ := bind_eq_ok.mp record
      cases record
      rw [(wr_ok address).2.1]
      exact ⟨by simp, (wr_ok address).1⟩
    · cases record
      rw [(wr_ok fixed).2.1]
      exact ⟨by simp, (wr_ok fixed).1⟩
  have builds := @setLocators_builds buf₃ locTuple.nodes pktlen 0 inside.2 inside.1
  obtain ⟨out, returned, _⟩ := builds.returns (room_of_builds builds locators) known
  obtain rfl := Except.ok.inj (returned.symm.trans locators)
  obtain ⟨string, read, _⟩ := bind_eq_ok.mp done
  rw [rdString, List.drop_zero] at read
  split at read
  · next ends => exact ends
  · cases read

/-- A Map-Register that is returned is whole. -/
theorem Lixyd.Presentable.mapRegister (inv : st.Presentable)
    {hmacSha1 : List Byte → List Byte → Bytes shaDigestLength} {buf : Bytes lispMsgBufLen}
    {key : List Byte} {nonce : Bytes 8}
    (done : setLispMapRegister hmacSha1 buf.toList st.locTuple pfx key nonce = .ok encoded)
    : ∃ auth, Whole encoded (mapRegisterMessage st.locTuple pfx nonce auth) 40
        st.locTuple.nodes := by
  have ends := key_ends_of_done inv.known done
  have builds := @setLispMapRegister_builds buf.toList st.locTuple pfx nonce key hmacSha1 ends
  have room := room_of_builds builds done
  have length (auth : Bytes shaDigestLength)
      : (mapRegisterMessage st.locTuple pfx nonce auth).length
        = registerRoom st.locTuple.nodes pfx := mapRegisterMessage_length inv.known nonce auth
  obtain ⟨auth, whole⟩ : ∃ auth, setLispMapRegister hmacSha1 buf.toList st.locTuple pfx key nonce
      = .ok (some (overlay buf.toList (mapRegisterMessage st.locTuple pfx nonce auth),
        (mapRegisterMessage st.locTuple pfx nonce auth).length)) := by
    rw [setLispMapRegister_eq inv.known ends (length _ ▸ room)]
    refine ⟨hmacSha1 (key.takeWhile (· ≠ 0))
      (mapRegisterMessage st.locTuple pfx nonce (zeros shaDigestLength)), ?_⟩
    rw [length, length]
  obtain ⟨out, returned, _, count⟩ := builds.returns room inv.known
  obtain rfl := Except.ok.inj (done.symm.trans whole)
  obtain ⟨rfl, _⟩ := Prod.mk.inj (Option.some.inj (Except.ok.inj (whole.symm.trans returned)))
  refine ⟨auth, _, rfl, take_overlay _ _, ?_⟩
  rw [byteAt_of_getElem? count]
  refine recordCount_eq inv.known inv.counted ?_
  rw [buf.toList_length, registerRoom, recordRoom] at room
  omega

/-- A Map-Request for a prefix of a known family is returned. -/
theorem Lixyd.Presentable.mapRequest (inv : st.Presentable) {buf : Bytes lispMsgBufLen}
    {nonce : Bytes 8} (valid : pfx.Valid)
    (done : setLispMapRequest buf.toList st.locTuple pfx nonce = .ok encoded)
    : ∃ out, encoded = some (out, requestRoom st.locTuple.nodes pfx) := by
  have builds := @setLispMapRequest_builds buf.toList st.locTuple pfx nonce
  obtain ⟨out, returned, _⟩ :=
    builds.returns (room_of_builds builds done) ⟨valid.addr_isSome, inv.known⟩
  exact ⟨out, Except.ok.inj (done.symm.trans returned)⟩

end

/-- In every state that the daemon comes to, the Map-Replies and Map-Registers that are returned
are whole and count all the locators, and a Map-Request is not refused.
-/
theorem announcements_whole {lib : Library} {st : Lixyd}
    (reachable : Reachable (daemonStep lib) .start st) (buf : Bytes lispMsgBufLen)
    (nonce : Bytes 8)
    : (∀ pfx encoded, setLispMapReply buf.toList st.locTuple pfx nonce = .ok encoded
        → Whole encoded (mapReplyMessage st.locTuple pfx nonce) 16 st.locTuple.nodes)
      ∧ (∀ hmacSha1, ∀ eid ∈ st.eidTuple.nodes, ∀ pfx ∈ eid.prefixTuple.nodes, pfx.Valid
        ∧ ∀ encoded, setLispMapRegister hmacSha1 buf.toList st.locTuple pfx eid.authkey.toList nonce
            = .ok encoded
          → ∃ auth, Whole encoded (mapRegisterMessage st.locTuple pfx nonce auth) 40
              st.locTuple.nodes)
      ∧ ∀ pfx encoded, pfx.Valid
        → setLispMapRequest buf.toList st.locTuple pfx nonce = .ok encoded
        → ∃ out, encoded = some (out, requestRoom st.locTuple.nodes pfx) := by
  have inv := presentable_of_reachable reachable
  refine ⟨fun _ _ done => inv.mapReply done, fun _ eid mem pfx mem' => ?_,
    fun _ _ valid done => inv.mapRequest valid done⟩
  exact ⟨inv.valid eid mem pfx mem', fun _ done => inv.mapRegister done⟩

/-- A library for testing that also resolves one IPv6 address. -/
def dualLibrary : Library :=
  { testLibrary with
    getaddrinfo := fun node port =>
      if node = some (ascii "2001:db8::1") then
        some (.inet6 port (zeros 4) testLocator6.locAddr.sin6Addr (zeros 4))
      else
        testLibrary.getaddrinfo node port }

/-- Two locators of different families, and an EID with an IPv4 prefix. -/
def dualTurns : List Turn :=
  [.op testJunk (ascii " locator 192.0.2.1 create"),
    .op testJunk (ascii " locator 2001:db8::1 create"), .op testJunk (ascii " eid s create"),
    .op testJunk (ascii " eid s prefix 10.0.0.0/8")]

set_option maxRecDepth 4000 in
/-- Witness: a Map-Reply for two locators of different families, and the Map-Register of a site
behind them.
-/
theorem twoLocators_whole
    : ∃ st eid pfx reply registered,
        run (daemonStep dualLibrary) .start dualTurns = .ok st
        ∧ st.locTuple.nodes.map (·.locAddr.family) = [afInet, afInet6]
        ∧ eid ∈ st.eidTuple.nodes ∧ pfx ∈ eid.prefixTuple.nodes
        ∧ setLispMapReply (zeros lispMsgBufLen).toList st.locTuple pfx (zeros 8) = .ok reply
        ∧ Whole reply (mapReplyMessage st.locTuple pfx (zeros 8)) 16 st.locTuple.nodes
        ∧ setLispMapRegister firstBytes (zeros lispMsgBufLen).toList st.locTuple pfx
            eid.authkey.toList (zeros 8) = .ok registered
        ∧ ∃ auth, Whole registered (mapRegisterMessage st.locTuple pfx (zeros 8) auth) 40
            st.locTuple.nodes := by
  have create4 : splitMessage (ascii " locator 192.0.2.1 create")
      = .ok (some [ascii "locator", ascii "192.0.2.1", ascii "create"]) :=
    splitMessage_words [ascii "locator", ascii "192.0.2.1", ascii "create"] nofun (by decide)
      (by decide) (by decide)
  have create6 : splitMessage (ascii " locator 2001:db8::1 create")
      = .ok (some [ascii "locator", ascii "2001:db8::1", ascii "create"]) :=
    splitMessage_words [ascii "locator", ascii "2001:db8::1", ascii "create"] nofun (by decide)
      (by decide) (by decide)
  have site : splitMessage (ascii " eid s create")
      = .ok (some [ascii "eid", ascii "s", ascii "create"]) :=
    splitMessage_words [ascii "eid", ascii "s", ascii "create"] nofun (by decide)
      (by decide) (by decide)
  have ten : splitMessage (ascii " eid s prefix 10.0.0.0/8")
      = .ok (some [ascii "eid", ascii "s", ascii "prefix", ascii "10.0.0.0/8"]) :=
    splitMessage_words [ascii "eid", ascii "s", ascii "prefix", ascii "10.0.0.0/8"] nofun
      (by decide) (by decide) (by decide)
  obtain ⟨st, first, second, eid, pfx, done, locs, families, addr4, addr6, eids, pfxs, ten_eq,
      ends⟩
      : ∃ st first second eid pfx, run (daemonStep dualLibrary) .start dualTurns = .ok st
        ∧ st.locTuple.nodes = [first, second]
        ∧ [first.locAddr.family, second.locAddr.family] = [afInet, afInet6]
        ∧ first.locAddr.addr = some [192, 0, 2, 1]
        ∧ second.locAddr.addr = testLocator6.locAddr.addr
        ∧ st.eidTuple.nodes = [eid] ∧ eid.prefixTuple.nodes = [pfx]
        ∧ pfx.addr = some [10, 0, 0, 0]
        ∧ 0 ∈ eid.authkey.toList := by
    simp only [dualTurns, run, daemonStep, lispOpThread_words create4,
      lispOpThread_words create6, lispOpThread_words site, lispOpThread_words ten]
    exact ⟨_, _, _, _, _, rfl, rfl, rfl, rfl, rfl, rfl, rfl, rfl, by decide⟩
  have room : registerRoom st.locTuple.nodes pfx ≤ (zeros lispMsgBufLen).toList.length := by
    rw [locs, registerRoom, recordRoom, locatorsRoom, locatorsRoom, addr4, addr6, ten_eq,
      List.Vector.toList_length]
    decide
  have known := (presentable_of_reachable ⟨_, done⟩).known
  obtain ⟨_, reply, _⟩ := (@setLispMapReply_builds _ st.locTuple pfx (zeros 8)).returns
    (Nat.le_trans (Nat.add_le_add_right (by decide) _) room) known
  obtain ⟨_, registered, _⟩ :=
    (@setLispMapRegister_builds _ st.locTuple pfx (zeros 8) _ firstBytes ends).returns room known
  have mem : eid ∈ st.eidTuple.nodes := by rw [eids]; exact List.mem_singleton_self eid
  have mem' : pfx ∈ eid.prefixTuple.nodes := by rw [pfxs]; exact List.mem_singleton_self pfx
  obtain ⟨replies, registers, _⟩ :=
    announcements_whole ⟨_, done⟩ (zeros lispMsgBufLen) (zeros 8)
  refine ⟨st, eid, pfx, _, _, done, by rw [locs]; exact families, mem, mem', reply,
    replies pfx _ reply, registered, ?_⟩
  exact (registers firstBytes eid mem pfx mem').2 _ registered

end Lixy.Control
