import Lixy.Control.Announcements
import Lixy.Daemon.OwnMessages
import Lixy.Daemon.QueryResolution
import Lixy.Foundation.Networks

/-! Daemons on one network. Nodes answer probes from outside, and the answers reach other nodes.
What a node learns goes back to a locator that an answering node had configured; where nobody
probes, no node learns anything.
-/

namespace Lixy.Control

open ByteStrings
open EventRuns (run)
open Networks (Network Protocol Reaches Step Caused)

-----------------------------------------------------------------------------------------
-- Messages of a node
-----------------------------------------------------------------------------------------

/-- What a node sends on its way from one state to the next: the Map-Reply and the Map-Requests
that the turn calls for, and at any time Map-Registers. `buf` is the sender's buffer as it was.
-/
inductive Sends (hmacSha1 : List Byte → List Byte → Bytes shaDigestLength) (st next : Lixyd)
    : List Byte → Prop
  | mapReply {pfx : Prefix} {nonce : Bytes 8} {etrAddr : SockaddrStorage}
      {buf : Bytes lispMsgBufLen} {out : List Byte} {len : Nat}
      (called : next.lisp.mapReplies = (pfx, nonce.toList, etrAddr) :: st.lisp.mapReplies)
      (built : setLispMapReply buf.toList next.locTuple pfx nonce = .ok (some (out, len)))
      : Sends hmacSha1 st next (out.take len)
  | mapRequest {calls : List Prefix} {pfx : Prefix} {nonce : Bytes 8}
      {buf : Bytes lispMsgBufLen} {out : List Byte} {len : Nat}
      (called : next.lisp.mapRequests = calls ++ st.lisp.mapRequests) (call : pfx ∈ calls)
      (built : setLispMapRequest buf.toList next.locTuple pfx nonce = .ok (some (out, len)))
      : Sends hmacSha1 st next (out.take len)
  | mapRegister {eid : Eid} {pfx : Prefix} {nonce : Bytes 8} {buf : Bytes lispMsgBufLen}
      {out : List Byte} {len : Nat} (own : eid ∈ next.eidTuple.nodes)
      (announced : pfx ∈ eid.prefixTuple.nodes)
      (built : setLispMapRegister hmacSha1 buf.toList next.locTuple pfx eid.authkey.toList nonce
        = .ok (some (out, len)))
      : Sends hmacSha1 st next (out.take len)

/-- Nodes with the datagrams that come from outside. A node's datagram is received over what the
receiver's buffer held.
-/
def nodes (lib : Library) (hmacSha1 : List Byte → List Byte → Bytes shaDigestLength)
    (Foreign : List Byte → Prop)
    : Protocol Lixyd Turn (List Byte) CommandFault where
  react := daemonStep lib
  Emits := Sends hmacSha1
  Outside
    | .mapMessage _ buf => Foreign buf
    | _ => True
  Arrives m turn := ∃ buf : Bytes lispMsgBufLen,
    turn = .mapMessage m.length (readInto buf m).toList

/-- An outsider sends no Map-Replies, and probes for valid prefixes. -/
def Probing (buf : List Byte) : Prop :=
  dispatch buf ≠ .ok .mapReply
    ∧ ∀ call, processLispMapRequest buf = .ok (some call) → call.1.Valid

/-- Nodes that have just started. -/
def Network.start {ι : Type} : Network ι Lixyd (List Byte) := ⟨fun _ => .start, []⟩

-----------------------------------------------------------------------------------------
-- What a node's message is to its receiver
-----------------------------------------------------------------------------------------

/-- A receiver does not answer the datagram. -/
def Unanswered (pkt : List Byte) : Prop :=
  dispatch pkt = .ok .mapRequest → processLispMapRequest pkt = .ok none

section

variable {hmacSha1 : List Byte → List Byte → Bytes shaDigestLength} {st next : Lixyd}
  {m pkt : List Byte}

/-- A message fits in the receiver's buffer. -/
theorem Sends.fits (inv : next.Presentable) (sends : Sends hmacSha1 st next m)
    : m.length ≤ lispMsgBufLen := by
  have sized {out : List Byte} {len : Nat} (length : out.length = lispMsgBufLen)
      : (out.take len).length ≤ lispMsgBufLen :=
    length ▸ List.length_take_le' len out
  cases sends with
  | mapReply called built =>
      exact sized ((sized_of_builds setLispMapReply_builds built).1.trans
        (List.Vector.toList_length _))
  | mapRequest called call built =>
      exact sized ((sized_of_builds setLispMapRequest_builds built).1.trans
        (List.Vector.toList_length _))
  | mapRegister own announced built =>
      have ends := key_ends_of_done inv.known built
      exact sized ((sized_of_builds (setLispMapRegister_builds hmacSha1 ends) built).1.trans
        (List.Vector.toList_length _))

/-- To a receiver a message is a Map-Reply of the sender, or nothing. -/
theorem Sends.received (inv : next.Presentable) (sends : Sends hmacSha1 st next m)
    (lies : LiesAt pkt 0 m)
    : (dispatch pkt = .ok .mapReply
        ∧ ∃ pfx etrAddr, ∃ nonce : Bytes 8,
            next.lisp.mapReplies = (pfx, nonce.toList, etrAddr) :: st.lisp.mapReplies
            ∧ m = mapReplyMessage next.locTuple pfx nonce)
      ∨ dispatch pkt ≠ .ok .mapReply ∧ Unanswered pkt := by
  cases sends with
  | mapReply called built =>
      obtain ⟨out, same, whole, _⟩ := inv.mapReply built
      obtain ⟨rfl, rfl⟩ := Prod.mk.inj (Option.some.inj same)
      rw [whole] at lies
      exact .inl ⟨dispatch_mapReplyMessage lies, _, _, _, called, whole⟩
  | mapRequest called call built =>
      obtain ⟨dispatched, unprobed⟩ := dispatch_mapRequestMessage built lies
      exact .inr ⟨by rw [dispatched]; nofun, fun _ => unprobed⟩
  | mapRegister own announced built =>
      obtain ⟨auth, out, same, whole, _⟩ := inv.mapRegister built
      obtain ⟨rfl, rfl⟩ := Prod.mk.inj (Option.some.inj same)
      rw [whole] at lies
      have dropped := dispatch_mapRegisterMessage lies
      exact .inr ⟨by rw [dropped]; nofun, by rw [Unanswered, dropped]; nofun⟩

end

-----------------------------------------------------------------------------------------
-- What nodes learn
-----------------------------------------------------------------------------------------

/-- A message on the air, received over some buffer, has the mapping. -/
def Heard (air : List (List Byte)) (mapping : Mapping) : Prop :=
  ∃ m ∈ air, ∃ buf : Bytes lispMsgBufLen,
    Event.Gives mapping (.message m.length (readInto buf m).toList)

/-- A node that answers valid prefixes only, and whose entries are QUERIED, STATIC or heard. -/
structure Justified (air : List (List Byte)) (st : Lixyd) : Prop where
  presentable : st.Presentable
  ok : TableOk st.lisp.rib
  asked : ∀ call ∈ st.lisp.mapReplies, call.1.Valid
  learned
    : ∀ mapping, st.lisp.view.Maps mapping
      → mapping.state = .queried ∨ mapping.state = .static ∨ Heard air mapping

/-- The message fits in a receiver's buffer, and no receiver answers it. -/
def Quiet (m : List Byte) : Prop :=
  m.length ≤ lispMsgBufLen ∧ ∀ pkt, LiesAt pkt 0 m → Unanswered pkt

section

variable {lib : Library} {hmacSha1 : List Byte → List Byte → Bytes shaDigestLength}
  {Foreign : List Byte → Prop} {air : List (List Byte)} {st next : Lixyd} {turn : Turn}

theorem justified_start : Justified air .start :=
  ⟨presentable_start, tableOk_createMaptable, nofun, by
    rintro mapping ⟨e, stored, _⟩
    cases stored⟩

theorem Justified.grows (more : List (List Byte)) (h : Justified air st)
    : Justified (more ++ air) st where
  presentable := h.presentable
  ok := h.ok
  asked := h.asked
  learned := fun mapping maps => by
    refine (h.learned mapping maps).imp_right (Or.imp_right ?_)
    rintro ⟨m, mem, heard⟩
    exact ⟨m, List.mem_append_right more mem, heard⟩

/-- Only a received message is a message to the map table. -/
theorem Shows.message {len : Nat} {buf : List Byte}
    (shows : Shows lib turn (some (.message len buf)))
    : turn = .mapMessage len buf := by
  cases shows with
  | route split word event => cases event
  | mapMessage => rfl

/-- What a turn that is not a received message gives is QUERIED or STATIC. -/
theorem Shows.gives {ev : Event} {mapping : Mapping} (shows : Shows lib turn (some ev))
    (gives : ev.Gives mapping)
    : mapping.state = .queried ∨ mapping.state = .static
      ∨ ∃ len buf, turn = .mapMessage len buf ∧ ev = .message len buf := by
  cases shows with
  | route split word event =>
      cases event with
      | install read resolved =>
          obtain ⟨_, _, _, static, _⟩ := gives
          exact .inr (.inl static)
      | uninstall read delete => exact gives.elim
  | mapMessage len buf => exact .inr (.inr ⟨len, buf, rfl, rfl⟩)
  | rawPacket frame =>
      obtain ⟨_, _, _, queried⟩ := gives
      exact .inl queried
  | maptable => exact gives.elim

/-- A message that is received is an outsider's, or one of a node. -/
theorem received_cases {len : Nat} {buf : List Byte}
    (caused : Caused (nodes lib hmacSha1 Foreign) air (.mapMessage len buf))
    : Foreign buf ∨ ∃ m ∈ air, ∃ buf' : Bytes lispMsgBufLen,
        len = m.length ∧ buf = (readInto buf' m).toList := by
  refine caused.imp id ?_
  rintro ⟨m, mem, buf', arrived⟩
  obtain ⟨rfl, rfl⟩ := Turn.mapMessage.inj arrived
  exact ⟨m, mem, buf', rfl, rfl⟩

/-- A Map-Reply that a node is asked for is for a valid prefix. -/
theorem Justified.asks (probing : ∀ buf, Foreign buf → Probing buf) (inv : Justified air st)
    (quiet : ∀ m ∈ air, Quiet m) {ev : Event} {lisp : Lisp}
    (caused : Caused (nodes lib hmacSha1 Foreign) air turn) (shows : Shows lib turn (some ev))
    (stepped : step st.lisp ev = .ok lisp)
    : ∀ call ∈ lisp.mapReplies, call.1.Valid := by
  rcases step_mapReplies stepped with same | ⟨len, buf, call, rfl, dispatched, request, asked⟩
  · rw [same]
    exact inv.asked
  · rw [asked]
    refine List.forall_mem_cons.mpr ⟨?_, inv.asked⟩
    obtain rfl := shows.message
    rcases received_cases caused with foreign | ⟨m, mem, buf', _, rfl⟩
    · exact (probing buf foreign).2 call request
    · obtain ⟨fits, unanswered⟩ := quiet m mem
      cases (unanswered _ (readInto_liesAt buf' fits) dispatched).symm.trans request

/-- What a node learns in a turn is heard. -/
theorem Justified.learns (probing : ∀ buf, Foreign buf → Probing buf) (inv : Justified air st)
    {ev : Event} {lisp : Lisp} (caused : Caused (nodes lib hmacSha1 Foreign) air turn)
    (shows : Shows lib turn (some ev)) (stepped : step st.lisp ev = .ok lisp) {mapping : Mapping}
    (maps : lisp.view.Maps mapping)
    : mapping.state = .queried ∨ mapping.state = .static ∨ Heard air mapping := by
  rcases step_maps inv.ok stepped maps with before | gives
  · exact inv.learned mapping before
  · rcases shows.gives gives with queried | static | ⟨len, buf, rfl, rfl⟩
    · exact .inl queried
    · exact .inr (.inl static)
    · rcases received_cases caused with foreign | ⟨m, mem, buf', rfl, rfl⟩
      · exact absurd gives.1 (probing buf foreign).1
      · exact .inr (.inr ⟨m, mem, buf', gives⟩)

/-- What happens to a node keeps it justified, and what it sends is quiet. -/
theorem Justified.keeps (probing : ∀ buf, Foreign buf → Probing buf) (inv : Justified air st)
    (quiet : ∀ m ∈ air, Quiet m) (caused : Caused (nodes lib hmacSha1 Foreign) air turn)
    (done : daemonStep lib st turn = .ok next)
    : Justified air next ∧ ∀ m, Sends hmacSha1 st next m → Quiet m := by
  have presentable := (daemonStep_change done).presentable inv.presentable
  constructor
  · obtain ⟨shown, shows, ran⟩ := daemonStep_shows done
    cases shown with
    | none =>
        have same : st.lisp = next.lisp := by simpa using ran
        exact ⟨presentable, same ▸ inv.ok, same ▸ inv.asked, same ▸ inv.learned⟩
    | some ev =>
        obtain ⟨lisp, stepped, rfl⟩ : ∃ lisp, step st.lisp ev = .ok lisp ∧ lisp = next.lisp := by
          simpa [EventRuns.run_cons_eq_ok] using ran
        exact ⟨presentable, (step_writes inv.ok stepped).1,
          inv.asks probing quiet caused shows stepped,
          fun _ maps => inv.learns probing caused shows stepped maps⟩
  · refine fun m sends => ⟨sends.fits presentable, fun pkt lies => ?_⟩
    rcases sends.received presentable lies with ⟨reply, _⟩ | ⟨_, unanswered⟩
    · rw [Unanswered, reply]
      nofun
    · exact unanswered

end

section

variable {ι : Type} [DecidableEq ι] {lib : Library}
  {hmacSha1 : List Byte → List Byte → Bytes shaDigestLength} {Foreign : List Byte → Prop}
  {net : Network ι Lixyd (List Byte)}

theorem justified_of_reaches (probing : ∀ buf, Foreign buf → Probing buf)
    (reaches : Reaches (nodes lib hmacSha1 Foreign) Network.start net)
    : (∀ i, Justified net.air (net.parties i)) ∧ ∀ m ∈ net.air, Quiet m :=
  reaches.invariant (fun _ more _ inv => inv.grows more)
    (fun _ _ _ _ inv quiet caused done => inv.keeps probing quiet caused done)
    (fun _ => justified_start) (fun _ mem => absurd mem List.not_mem_nil)

/-- In the turn from `st` to `next` a node answers a probe for a prefix with the key, and has a
locator with the address configured.
-/
structure Announced (st next : Lixyd) (key : List Bool) (addr : SockaddrStorage) : Prop where
  answered
    : ∃ pfx etrAddr, ∃ nonce : Bytes 8, pfx.Valid ∧ pfx.key = key
        ∧ next.lisp.mapReplies = (pfx, nonce.toList, etrAddr) :: st.lisp.mapReplies
  configured
    : ∃ loc ∈ next.locTuple.nodes, addr.family = loc.locAddr.family
        ∧ addr.addr = loc.locAddr.addr
  port : addr.port = lispDataPort

/-- What a node learns from a message that another one sent, the sender announced. -/
theorem Sends.announced {st next : Lixyd} {m : List Byte} {mapping : Mapping} {len : Nat}
    (presentable : next.Presentable) (asked : ∀ call ∈ next.lisp.mapReplies, call.1.Valid)
    (sends : Sends hmacSha1 st next m) {buf : Bytes lispMsgBufLen}
    (gives : Event.Gives mapping (.message len (readInto buf m).toList))
    : mapping.state = .active ∧ Announced st next mapping.key mapping.addr := by
  have fits := sends.fits presentable
  have lies := readInto_liesAt buf fits
  rcases sends.received presentable lies with ⟨_, pfx, etrAddr, nonce, called, rfl⟩ | ⟨other, _⟩
  · have valid : pfx.Valid := asked _ (called ▸ List.mem_cons_self)
    rw [mapReplyMessage_length presentable.known, replyRoom, recordRoom] at fits
    have counted := recordCount_eq presentable.known presentable.counted (by omega)
    rw [BitVec.toNat_ofNat] at counted
    obtain ⟨key, active, loc, mem, family, addr, port⟩ :=
      mapReplyMessage_gives valid presentable.known counted lies gives
    exact ⟨active, ⟨pfx, etrAddr, nonce, valid, key.symm, called⟩, ⟨loc, mem, family, addr⟩, port⟩
  · exact absurd gives.1 other

/-- However messages are lost, repeated, reordered and misdirected, and however outsiders probe:
an entry of a node is QUERIED or STATIC, or it is ACTIVE with a locator that a node had configured
when it answered a probe for the entry's prefix.
-/
theorem learned_from_answers (probing : ∀ buf, Foreign buf → Probing buf)
    (reaches : Reaches (nodes lib hmacSha1 Foreign) Network.start net) {i : ι} {key : List Bool}
    {e : Prefix × Mapnode} (stored : (net.parties i).lisp.rib.store key = some e)
    : e.2.state = .queried ∨ e.2.state = .static
      ∨ e.2.state = .active
        ∧ ∃ before after j, Reaches (nodes lib hmacSha1 Foreign) Network.start before
            ∧ Step (nodes lib hmacSha1 Foreign) before after
            ∧ Reaches (nodes lib hmacSha1 Foreign) after net
            ∧ Announced (before.parties j) (after.parties j) key e.2.addr := by
  obtain ⟨justified, _⟩ := justified_of_reaches probing reaches
  refine ((justified i).learned ⟨key, e.2.state, e.2.addr⟩ ⟨e, stored, rfl, rfl⟩).imp_right
    (Or.imp_right ?_)
  rintro ⟨m, mem, buf, gives⟩
  rcases reaches.sender mem with first | ⟨before, after, j, reached, step, since, sends⟩
  · exact absurd first List.not_mem_nil
  · have then_ := (justified_of_reaches probing (reached.tail step)).1 j
    obtain ⟨active, announced⟩ := sends.announced then_.presentable then_.asked gives
    exact ⟨active, before, after, j, reached, step, since, announced⟩

end

/-- A probe for 10.0.0.0/8 from 192.0.2.9, for testing. -/
def siteProbe : List Byte :=
  [0x12, 0, 0, 1, 0, 0, 0, 0, 0, 0, 0, 0, 0, 1, 192, 0, 2, 9, 0, 1, 192, 0, 2, 1, 0, 8, 0, 1, 10,
    0, 0, 0]

/-- Two nodes where that probe comes from outside. -/
def siteNodes : Protocol Lixyd Turn (List Byte) CommandFault :=
  nodes testLibrary (fun _ _ => zeros shaDigestLength) (· = siteProbe)

set_option maxRecDepth 4000 in
theorem siteProbe_probing (buf : List Byte) (probe : buf = siteProbe) : Probing buf := by
  subst probe
  have dispatched : dispatch siteProbe = .ok .mapRequest := rfl
  obtain ⟨etrAddr, request⟩ : ∃ etrAddr,
      processLispMapRequest siteProbe = .ok (some (testPrefix, (zeros 8).toList, etrAddr)) :=
    ⟨_, rfl⟩
  refine ⟨by rw [dispatched]; nofun, fun call answered => ?_⟩
  obtain rfl := Option.some.inj (Except.ok.inj (request.symm.trans answered))
  change testPrefix.Valid
  decide

set_option maxRecDepth 10000 in
/-- A node with a locator answers the probe, and another node learns the prefix from that. -/
theorem siteAnswer
    : ∃ site answering other loc etrAddr e,
        daemonStep testLibrary .start (.op testJunk (ascii " locator 192.0.2.1 create")) = .ok site
        ∧ daemonStep testLibrary site (.mapMessage siteProbe.length siteProbe) = .ok answering
        ∧ answering.lisp.mapReplies
          = (testPrefix, (zeros 8).toList, etrAddr) :: site.lisp.mapReplies
        ∧ answering.locTuple.nodes = [loc] ∧ loc.locAddr.addr = some [192, 0, 2, 1]
        ∧ daemonStep testLibrary .start
            (.mapMessage (mapReplyMessage answering.locTuple testPrefix (zeros 8)).length
              (readInto (zeros lispMsgBufLen)
                (mapReplyMessage answering.locTuple testPrefix (zeros 8))).toList)
          = .ok other
        ∧ other.lisp.rib.store testPrefix.key = some e ∧ e.2.state = .active := by
  have create : splitMessage (ascii " locator 192.0.2.1 create")
      = .ok (some [ascii "locator", ascii "192.0.2.1", ascii "create"]) :=
    splitMessage_words [ascii "locator", ascii "192.0.2.1", ascii "create"] nofun (by decide)
      (by decide) (by decide)
  simp only [daemonStep, lispOpThread_words create]
  exact ⟨_, _, _, _, _, _, rfl, rfl, rfl, rfl, rfl, rfl, rfl, rfl⟩

/-- Witness: what the other node learned, the first one announced. -/
theorem siteNodes_learn
    : ∃ (net : Network Bool Lixyd (List Byte)) (e : Prefix × Mapnode),
        Reaches siteNodes Network.start net
        ∧ (net.parties true).lisp.rib.store testPrefix.key = some e ∧ e.2.state = .active
        ∧ ∃ before after j, Reaches siteNodes Network.start before ∧ Step siteNodes before after
            ∧ Reaches siteNodes after net
            ∧ Announced (before.parties j) (after.parties j) testPrefix.key e.2.addr := by
  obtain ⟨site, answering, other, loc, etrAddr, e, created, probed, called, locs, addr, received,
    stored, active⟩ := siteAnswer
  have ran : run (daemonStep testLibrary) .start
      [.op testJunk (ascii " locator 192.0.2.1 create"), .mapMessage siteProbe.length siteProbe]
      = .ok answering :=
    EventRuns.run_cons_eq_ok.mpr ⟨_, created, EventRuns.run_cons_eq_ok.mpr ⟨_, probed, rfl⟩⟩
  have inv := presentable_of_reachable ⟨_, ran⟩
  have room : replyRoom answering.locTuple.nodes testPrefix
      ≤ (zeros lispMsgBufLen).toList.length := by
    rw [locs, replyRoom, recordRoom, locatorsRoom, addr, List.Vector.toList_length]
    decide
  obtain ⟨_, returned, _⟩ := (@setLispMapReply_builds (zeros lispMsgBufLen).toList
    answering.locTuple testPrefix (zeros 8)).returns room inv.known
  obtain ⟨out, same, whole, _⟩ := inv.mapReply returned
  obtain ⟨rfl, length⟩ := Prod.mk.inj (Option.some.inj same)
  have sends : Sends (fun _ _ => zeros shaDigestLength) site answering
      (mapReplyMessage answering.locTuple testPrefix (zeros 8)) := by
    rw [← whole]
    exact .mapReply called (length ▸ returned)
  have asked := @Step.react Bool _ _ _ _ _ siteNodes Network.start false
    (.op testJunk (ascii " locator 192.0.2.1 create")) site [] (.inl trivial) created
    (fun _ mem => absurd mem List.not_mem_nil)
  have answered := @Step.react Bool _ _ _ _ _ siteNodes (Network.start.put false site []) false
    (.mapMessage siteProbe.length siteProbe) answering
    [mapReplyMessage answering.locTuple testPrefix (zeros 8)] (.inl rfl) probed
    (fun _ mem => List.mem_singleton.mp mem ▸ sends)
  have heard := @Step.react Bool _ _ _ _ _ siteNodes
    ((Network.start.put false site []).put false answering
      [mapReplyMessage answering.locTuple testPrefix (zeros 8)]) true
    (.mapMessage _ _) other [] (.inr ⟨_, List.mem_cons_self, zeros lispMsgBufLen, rfl⟩) received
    (fun _ mem => absurd mem List.not_mem_nil)
  have reaches := ((Relation.ReflTransGen.single asked).tail answered).tail heard
  have learned := learned_from_answers siteProbe_probing reaches (i := true) stored
  rw [active] at learned
  rcases learned with queried | static | ⟨_, announced⟩
  · cases queried
  · cases static
  · exact ⟨_, e, reaches, stored, active, announced⟩

section

variable {ι : Type} [DecidableEq ι] {lib : Library}
  {hmacSha1 : List Byte → List Byte → Bytes shaDigestLength} {net : Network ι Lixyd (List Byte)}

/-- Without outsiders, what happens to a node asks it for no Map-Reply. -/
theorem asks_nothing {air : List (List Byte)} {st next : Lixyd} {turn : Turn}
    (quiet : ∀ m ∈ air, Quiet m) (silent : st.lisp.mapReplies = [])
    (caused : Caused (nodes lib hmacSha1 fun _ => False) air turn)
    (done : daemonStep lib st turn = .ok next)
    : next.lisp.mapReplies = [] := by
  obtain ⟨shown, shows, ran⟩ := daemonStep_shows done
  cases shown with
  | none =>
      have same : st.lisp = next.lisp := by simpa using ran
      exact same ▸ silent
  | some ev =>
      obtain ⟨lisp, stepped, rfl⟩ : ∃ lisp, step st.lisp ev = .ok lisp ∧ lisp = next.lisp := by
        simpa [EventRuns.run_cons_eq_ok] using ran
      rcases step_mapReplies stepped with same | ⟨len, buf, call, rfl, dispatched, request, _⟩
      · exact same.trans silent
      · obtain rfl := shows.message
        rcases received_cases caused with foreign | ⟨m, mem, buf', _, rfl⟩
        · exact foreign.elim
        · obtain ⟨fits, unanswered⟩ := quiet m mem
          cases (unanswered _ (readInto_liesAt buf' fits) dispatched).symm.trans request

/-- A node that was never asked for a Map-Reply. -/
structure Silent (air : List (List Byte)) (st : Lixyd) : Prop extends Justified air st where
  unasked : st.lisp.mapReplies = []

theorem unasked_of_reaches
    (reaches : Reaches (nodes lib hmacSha1 fun _ => False) Network.start net) (i : ι)
    : (net.parties i).lisp.mapReplies = [] := by
  have probing (buf : List Byte) (foreign : False) : Probing buf := foreign.elim
  have silent : (∀ i, Silent net.air (net.parties i)) ∧ ∀ m ∈ net.air, Quiet m := by
    refine reaches.invariant ?_ ?_ (fun _ => ⟨justified_start, rfl⟩)
      (fun _ mem => absurd mem List.not_mem_nil)
    · exact fun _ more _ inv => ⟨inv.toJustified.grows more, inv.unasked⟩
    · intro air st turn next inv quiet caused done
      obtain ⟨kept, fresh⟩ := inv.toJustified.keeps probing quiet caused done
      exact ⟨⟨kept, asks_nothing quiet inv.unasked caused done⟩, fresh⟩
  exact (silent.1 i).unasked

/-- Where nothing comes from outside, no node is asked for a Map-Reply, and none learns anything.
-/
theorem silent_network
    (reaches : Reaches (nodes lib hmacSha1 fun _ => False) Network.start net) (i : ι)
    : (net.parties i).lisp.mapReplies = []
      ∧ ∀ key e, (net.parties i).lisp.rib.store key = some e
        → e.2.state = .queried ∨ e.2.state = .static := by
  have probing (buf : List Byte) (foreign : False) : Probing buf := foreign.elim
  refine ⟨unasked_of_reaches reaches i, fun key e stored => ?_⟩
  rcases learned_from_answers probing reaches stored
    with queried | static | ⟨_, before, after, j, reached, step, _, announced⟩
  · exact .inl queried
  · exact .inr static
  · obtain ⟨_, _, _, _, _, called⟩ := announced.answered
    rw [unasked_of_reaches (reached.tail step) j] at called
    cases called

end

/-- Witness: a node alone asks for the destination of a packet, and learns nothing. -/
theorem siteNodes_silent
    : ∃ net : Network Bool Lixyd (List Byte),
        Reaches (nodes testLibrary (fun _ _ => zeros shaDigestLength) fun _ => False) Network.start
          net
        ∧ (∃ key e, (net.parties true).lisp.rib.store key = some e)
        ∧ (net.parties true).lisp.mapReplies = []
        ∧ ∀ key e, (net.parties true).lisp.rib.store key = some e
          → e.2.state = .queried ∨ e.2.state = .static := by
  obtain ⟨asking, key, e, done, stored⟩ : ∃ asking key e,
      daemonStep testLibrary .start (.rawPacket tenPacket) = .ok asking
      ∧ asking.lisp.rib.store key = some e :=
    ⟨_, tenPacket.dstprefix.elim [] Prefix.key, _, rfl, rfl⟩
  have asked := @Step.react Bool _ _ _ _ _
    (nodes testLibrary (fun _ _ => zeros shaDigestLength) fun _ => False) Network.start true
    (.rawPacket tenPacket) asking [] (.inl trivial) done (fun _ mem => absurd mem List.not_mem_nil)
  have reaches := Relation.ReflTransGen.single asked
  exact ⟨_, reaches, ⟨key, e, stored⟩, silent_network reaches true⟩

end Lixy.Control
