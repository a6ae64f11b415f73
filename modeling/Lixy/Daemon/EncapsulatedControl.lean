import Lixy.Daemon.ValidEvents
import Lixy.Messages.RecordRelocation
import Lixy.Messages.RequestReturns
import Lixy.Patricia.Shapes

/-! Control messages behind an encapsulation header. The type is read from the message inside,
and everything else from the start of the header.
-/

namespace Lixy

open ByteStrings
open LongestPrefix (Store lastAt)
open EventRuns (run Reachable)

-----------------------------------------------------------------------------------------
-- Dispatch
-----------------------------------------------------------------------------------------

/-- What stands before an encapsulated control message: the LISP header of type 8, an IPv4
header without options or an IPv6 header, and a UDP header.
-/
structure EcapHeader (ctl ip udp : List Byte) : Prop where
  control : ctl.length = sizeofLispControl
  type : (byteAt ctl 0 >>> 4).toNat = lispEcapCtl
  inner : ip.length = sizeofIp ∧ byteAt ip 0 = 0x45
    ∨ ip.length = sizeofIp6Hdr ∧ (byteAt ip 0 >>> 4).toNat = 6
  udp : udp.length = sizeofUdphdr

/-- The reserved bits of the LISP header that lie where a Map-Request has the probe flag and
where a Map-Reply has its record count.
-/
def ReservedClear (ctl : List Byte) : Prop :=
  (byteAt ctl 0).getLsbD 1 = false ∧ byteAt ctl 3 = 0

/-- The message that a first byte announces. -/
def messageOf (first : Byte) : Dispatch :=
  if (first >>> 4).toNat = lispMapRply then
    .mapReply
  else if (first >>> 4).toNat = lispMapRqst then
    .mapRequest
  else
    .dropped

section

variable {ctl ip udp m : List Byte} {first : Byte}

/-- The last switch goes by the message's first byte. -/
theorem switch_messageOf (first : Byte)
    : (if (first >>> 4).toNat = lispMapRply then pure Dispatch.mapReply
        else if (first >>> 4).toNat = lispMapRqst then pure Dispatch.mapRequest
        else pure Dispatch.dropped : Except Fault Dispatch)
      = .ok (messageOf first) := by
  unfold messageOf
  split
  · rfl
  · split <;> rfl

/-- A bare message is dispatched by its first byte. -/
theorem dispatch_bare (read : rd m 0 = .ok first) (bare : (first >>> 4).toNat ≠ lispEcapCtl)
    : dispatch m = .ok (messageOf first) := by
  refine bind_eq_ok.mpr ⟨first, read, ?_⟩
  rw [if_neg bare]
  exact bind_eq_ok.mpr ⟨some 0, rfl, bind_eq_ok.mpr ⟨first, read, switch_messageOf first⟩⟩

/-- So is the message behind the headers. -/
theorem dispatch_encapsulated (h : EcapHeader ctl ip udp) (read : rd m 0 = .ok first)
    : dispatch (ctl ++ ip ++ udp ++ m) = .ok (messageOf first) := by
  have type : rd (ctl ++ ip ++ udp ++ m) 0 = .ok (byteAt ctl 0) := by
    rw [List.append_assoc, List.append_assoc]
    exact (confined_rd 0).eq_ok (rd_eq_ok.mpr ⟨by rw [h.control]; decide, rfl⟩) _
  have version (some : 0 < ip.length)
      : rd (ctl ++ ip ++ udp ++ m) sizeofLispControl = .ok (byteAt ip 0) := by
    rw [List.append_assoc]
    refine (confined_rd _).eq_ok ((moved_rd ?_).eq_ok.mpr (rd_eq_ok.mpr ⟨some, rfl⟩)) _
    rw [h.control]
  refine bind_eq_ok.mpr ⟨_, type, ?_⟩
  rw [if_pos h.type]
  rcases h.inner with ⟨length, ihl⟩ | ⟨length, ipV⟩
  · have behind : rd (ctl ++ ip ++ udp ++ m) (sizeofLispControl + sizeofIp + sizeofUdphdr)
        = .ok first := by
      refine (moved_rd ?_).eq_ok.mpr read
      rw [List.length_append, List.length_append, h.control, length, h.udp, Nat.add_zero]
    refine bind_eq_ok.mpr ⟨_, version (by rw [length]; decide), ?_⟩
    rw [ihl]
    exact bind_eq_ok.mpr ⟨some _, rfl, bind_eq_ok.mpr ⟨first, behind, switch_messageOf first⟩⟩
  · have behind : rd (ctl ++ ip ++ udp ++ m) (sizeofLispControl + sizeofIp6Hdr + sizeofUdphdr)
        = .ok first := by
      refine (moved_rd ?_).eq_ok.mpr read
      rw [List.length_append, List.length_append, h.control, length, h.udp, Nat.add_zero]
    refine bind_eq_ok.mpr ⟨_, version (by rw [length]; decide), ?_⟩
    simp only [ipV]
    exact bind_eq_ok.mpr ⟨some _, rfl, bind_eq_ok.mpr ⟨first, behind, switch_messageOf first⟩⟩

end

-----------------------------------------------------------------------------------------
-- Effects
-----------------------------------------------------------------------------------------

/-- Both return, with the same map table up to the addresses of its nodes, and the same
Map-Replies sent.
-/
def SameEffect (x y : Except Fault Lisp) : Prop :=
  ∃ a b, x = .ok a ∧ y = .ok b
    ∧ a.rib.tree.head.unaddressed = b.rib.tree.head.unaddressed ∧ a.rib.count = b.rib.count
    ∧ a.mapReplies = b.mapReplies

/-- The entries that a datagram puts when it is read as a Map-Reply from its start. -/
def messagePuts (pkt : List Byte) (store : Store Bool (Prefix × Mapnode))
    : List (Prefix × Mapnode) :=
  replyPuts pkt (byteAt pkt 3).toNat sizeofLispMapReply store

/-- The mapnodes that it leaves without a prefix. -/
def messageStrays (pkt : List Byte) (store : Store Bool (Prefix × Mapnode)) : List Mapnode :=
  replyStrays pkt (byteAt pkt 3).toNat sizeofLispMapReply store

/-- The last entry that it puts under a key. -/
def lastPut (pkt : List Byte) (store : Store Bool (Prefix × Mapnode)) (key : List Bool)
    : Option (Prefix × Mapnode) :=
  lastAt ((messagePuts pkt store).map fun e => (e.1.key, e)) key

/-- A datagram of a kind is processed to its end when it is read from its start. -/
def MessageReturns (kind : Dispatch) (pkt : List Byte) (o : Outline Mapnode) : Prop :=
  match kind with
  | .mapReply => 3 < pkt.length ∧ RecordsReturn pkt (byteAt pkt 3).toNat sizeofLispMapReply o
  | .mapRequest => RequestReturns pkt
  | .dropped => True

/-- Two datagrams of a kind leave the same and ask for the same: under each key the last entry
that they put, or else the one there, the last mapnode without a prefix, and the fields of a
probe.
-/
def SameContent (kind : Dispatch) (pkt pkt' : List Byte) (o : Outline Mapnode) : Prop :=
  match kind with
  | .mapReply =>
      (∀ key, (lastPut pkt o.store key).or (o.store key)
          = (lastPut pkt' o.store key).or (o.store key))
        ∧ (messageStrays pkt o.store).getLast?.or o.stray
          = (messageStrays pkt' o.store).getLast?.or o.stray
  | .mapRequest => SameRequest pkt pkt'
  | .dropped => True

/-- A message that finds done what it asks for: a Map-Request without the probe flag, or a
Map-Reply whose last entry for each prefix that it puts one for is the one there, and that
leaves no mapnode without a prefix.
-/
def NoContent (m : List Byte) (o : Outline Mapnode) : Prop :=
  match messageOf (byteAt m 0) with
  | .mapReply =>
      (∀ key e, lastPut m o.store key = some e → o.store key = some e)
        ∧ messageStrays m o.store = []
  | .mapRequest => (byteAt m 0).getLsbD 1 = false
  | .dropped => True

section

variable {pkt pkt' : List Byte} {kind : Dispatch} {lisp a b : Lisp}

/-- A Map-Reply goes to its handler. -/
theorem processLispMapMessage_mapReply (dispatched : dispatch pkt = .ok .mapReply)
    : processLispMapMessage pkt lisp = (do
        let (lisp, _) ← processLispMapReply pkt lisp
        return lisp) := by
  rw [processLispMapMessage, dispatched]
  rfl

/-- A Map-Request goes to its handler, which has at most one Map-Reply sent. -/
theorem processLispMapMessage_mapRequest (dispatched : dispatch pkt = .ok .mapRequest)
    : processLispMapMessage pkt lisp = (do
        let call ← processLispMapRequest pkt
        return { lisp with mapReplies := call.toList ++ lisp.mapReplies }) := by
  rw [processLispMapMessage, dispatched]
  change (processLispMapRequest pkt >>= _) = _
  refine bind_congr fun call => ?_
  cases call <;> rfl

/-- Anything else is left. -/
theorem processLispMapMessage_dropped (dispatched : dispatch pkt = .ok .dropped)
    : processLispMapMessage pkt lisp = .ok lisp := by
  rw [processLispMapMessage, dispatched]
  rfl

/-- The thread comes back from a message exactly when this is processed to its end. -/
theorem processLispMapMessage_returns_iff (ok : TableOk lisp.rib)
    (dispatched : dispatch pkt = .ok kind)
    : (∃ a, processLispMapMessage pkt lisp = .ok a)
      ↔ MessageReturns kind pkt lisp.rib.outline := by
  cases kind with
  | mapReply =>
      rw [processLispMapMessage_mapReply dispatched]
      refine Iff.trans ?_ (processLispMapReply_returns_iff ok)
      constructor
      · rintro ⟨a, done⟩
        obtain ⟨⟨after, next⟩, reply, _⟩ := bind_eq_ok.mp done
        exact ⟨after, next, reply⟩
      · rintro ⟨after, next, reply⟩
        exact ⟨after, bind_eq_ok.mpr ⟨(after, next), reply, rfl⟩⟩
  | mapRequest =>
      rw [processLispMapMessage_mapRequest dispatched]
      refine Iff.trans ?_ processLispMapRequest_returns_iff
      constructor
      · rintro ⟨a, done⟩
        obtain ⟨call, request, _⟩ := bind_eq_ok.mp done
        exact ⟨call, request⟩
      · rintro ⟨call, request⟩
        exact ⟨_, bind_eq_ok.mpr ⟨call, request, rfl⟩⟩
  | dropped => exact iff_of_true ⟨lisp, processLispMapMessage_dropped dispatched⟩ trivial

/-- A Map-Reply leaves its entries and its stray, and counts and sends nothing. -/
theorem mapReply_effect (ok : TableOk lisp.rib) (dispatched : dispatch pkt = .ok .mapReply)
    (done : processLispMapMessage pkt lisp = .ok a)
    : TableOk a.rib
      ∧ a.rib.outline = lisp.rib.outline.behindAll pkt (byteAt pkt 3).toNat sizeofLispMapReply
      ∧ a.rib.count = lisp.rib.count ∧ a.mapReplies = lisp.mapReplies := by
  rw [processLispMapMessage_mapReply dispatched] at done
  obtain ⟨⟨after, next⟩, reply, done⟩ := bind_eq_ok.mp done
  obtain rfl := pure_eq_ok.mp done
  have records := processLispMapReply_records reply
  exact ⟨(mapReplyRecords_writes ok records).1, mapReplyRecords_outline ok records,
    mapReplyRecords_count records, mapReplyRecords_mapReplies records⟩

/-- A Map-Request leaves the table, and has the Map-Reply sent that it asks for. -/
theorem mapRequest_effect (dispatched : dispatch pkt = .ok .mapRequest)
    (done : processLispMapMessage pkt lisp = .ok a)
    : a.rib = lisp.rib
      ∧ ∃ call, processLispMapRequest pkt = .ok call
        ∧ a.mapReplies = call.toList ++ lisp.mapReplies := by
  rw [processLispMapMessage_mapRequest dispatched] at done
  obtain ⟨call, request, done⟩ := bind_eq_ok.mp done
  obtain rfl := pure_eq_ok.mp done
  exact ⟨rfl, call, request, rfl⟩

/-- What two Map-Replies leave is the same exactly when their last puts and strays are. -/
theorem behindAll_eq_iff {o : Outline Mapnode}
    : o.behindAll pkt (byteAt pkt 3).toNat sizeofLispMapReply
        = o.behindAll pkt' (byteAt pkt' 3).toNat sizeofLispMapReply
      ↔ SameContent .mapReply pkt pkt' o := by
  have left (pkt : List Byte) (key : List Bool)
      : (o.behindAll pkt (byteAt pkt 3).toNat sizeofLispMapReply).store key
        = (lastPut pkt o.store key).or (o.store key) := by
    rw [behindAll_store, putAll, LongestPrefix.insertAll_apply]
    rfl
  rw [Outline.ext_iff, funext_iff, behindAll_stray, behindAll_stray]
  simp only [left]
  rfl

/-- What two datagrams of a kind leave is the same exactly when their content is. -/
theorem sameContent_iff (ok : TableOk lisp.rib) (left : dispatch pkt = .ok kind)
    (right : dispatch pkt' = .ok kind) (done : processLispMapMessage pkt lisp = .ok a)
    (done' : processLispMapMessage pkt' lisp = .ok b)
    : (a.rib.tree.head.unaddressed = b.rib.tree.head.unaddressed ∧ a.rib.count = b.rib.count
        ∧ a.mapReplies = b.mapReplies)
      ↔ SameContent kind pkt pkt' lisp.rib.outline := by
  cases kind with
  | mapReply =>
      obtain ⟨okA, outline, count, replies⟩ := mapReply_effect ok left done
      obtain ⟨okB, outline', count', replies'⟩ := mapReply_effect ok right done'
      rw [unaddressed_eq_iff okA.wf okB.wf, count, count', replies, replies',
        ← behindAll_eq_iff, ← outline, ← outline']
      exact and_iff_left ⟨rfl, rfl⟩
  | mapRequest =>
      obtain ⟨table, call, asked, replies⟩ := mapRequest_effect left done
      obtain ⟨table', call', asked', replies'⟩ := mapRequest_effect right done'
      have returns := processLispMapRequest_returns_iff.mp ⟨call, asked⟩
      have returns' := processLispMapRequest_returns_iff.mp ⟨call', asked'⟩
      have lists : call.toList = call'.toList ↔ call = call' := by
        cases call <;> cases call' <;> simp
      change _ ↔ SameRequest pkt pkt'
      rw [table, table', replies, replies', ← processLispMapRequest_eq_iff returns returns',
        asked, asked', Except.ok.injEq, List.append_left_inj, lists]
      exact ⟨fun same => same.2.2, fun calls => ⟨rfl, rfl, calls⟩⟩
  | dropped =>
      obtain rfl := Except.ok.inj ((processLispMapMessage_dropped left).symm.trans done)
      obtain rfl := Except.ok.inj ((processLispMapMessage_dropped right).symm.trans done')
      exact iff_of_true ⟨rfl, rfl, rfl⟩ trivial

/-- Two datagrams of a kind have the same effect exactly when both are processed to their ends
and have the same content.
-/
theorem sameEffect_iff (ok : TableOk lisp.rib) (left : dispatch pkt = .ok kind)
    (right : dispatch pkt' = .ok kind)
    : SameEffect (processLispMapMessage pkt lisp) (processLispMapMessage pkt' lisp)
      ↔ MessageReturns kind pkt lisp.rib.outline ∧ MessageReturns kind pkt' lisp.rib.outline
        ∧ SameContent kind pkt pkt' lisp.rib.outline := by
  rw [← processLispMapMessage_returns_iff ok left, ← processLispMapMessage_returns_iff ok right]
  constructor
  · rintro ⟨a, b, done, done', effects⟩
    exact ⟨⟨a, done⟩, ⟨b, done'⟩, (sameContent_iff ok left right done done').mp effects⟩
  · rintro ⟨⟨a, done⟩, ⟨b, done'⟩, content⟩
    exact ⟨a, b, done, done', (sameContent_iff ok left right done done').mpr content⟩

end

-----------------------------------------------------------------------------------------
-- Clear reserved bits
-----------------------------------------------------------------------------------------

section

variable {ctl ip udp m : List Byte}

/-- The fixed part of the headers, where the handlers look for the flag and the count. -/
theorem byteAt_headers (h : EcapHeader ctl ip udp) {i : Nat} (inside : i < sizeofLispControl)
    : byteAt (ctl ++ ip ++ udp ++ m) i = byteAt ctl i := by
  have inside : i < ctl.length := h.control.symm ▸ inside
  rw [List.append_assoc, List.append_assoc, byteAt, byteAt, List.getD, List.getD,
    List.getElem?_append_left inside]

/-- Behind headers whose reserved bits are clear nothing is changed: a Map-Reply is read as one
without records, and a Map-Request as one without the probe flag.
-/
theorem encapsulated_idle {lisp : Lisp} (h : EcapHeader ctl ip udp) (clear : ReservedClear ctl)
    (some : m ≠ [])
    : processLispMapMessage (ctl ++ ip ++ udp ++ m) lisp = .ok lisp := by
  have first : rd m 0 = .ok (byteAt m 0) := rd_eq_ok.mpr ⟨List.length_pos_iff.mpr some, rfl⟩
  have dispatched := dispatch_encapsulated h first
  have length : 3 < (ctl ++ ip ++ udp ++ m).length := by
    have four : ctl.length = 4 := h.control
    rw [List.append_assoc, List.append_assoc, List.length_append]
    omega
  cases kind : messageOf (byteAt m 0) with
  | mapReply =>
      rw [processLispMapMessage_mapReply (kind ▸ dispatched)]
      have count : rd (ctl ++ ip ++ udp ++ m) 3 = .ok 0 :=
        rd_eq_ok.mpr ⟨length, by rw [byteAt_headers h (by decide), clear.2]⟩
      exact bind_eq_ok.mpr ⟨(lisp, _), bind_eq_ok.mpr ⟨0, count, rfl⟩, rfl⟩
  | mapRequest =>
      rw [processLispMapMessage_mapRequest (kind ▸ dispatched)]
      have unset : (byteAt (ctl ++ ip ++ udp ++ m) 0).getLsbD 1 = false := by
        rw [byteAt_headers h (by decide)]
        exact clear.1
      exact bind_eq_ok.mpr ⟨none, processLispMapRequest_unset (by omega) unset, rfl⟩
  | dropped => exact processLispMapMessage_dropped (kind ▸ dispatched)

/-- So a message behind them that is processed has the content of the bare one exactly when
that one finds all done.
-/
theorem encapsulated_sameContent_iff {o : Outline Mapnode} (h : EcapHeader ctl ip udp)
    (clear : ReservedClear ctl) (returns : MessageReturns (messageOf (byteAt m 0)) m o)
    : SameContent (messageOf (byteAt m 0)) (ctl ++ ip ++ udp ++ m) m o ↔ NoContent m o := by
  unfold NoContent
  revert returns
  cases messageOf (byteAt m 0) with
  | mapReply =>
      rintro ⟨_, records⟩
      have none : byteAt (ctl ++ ip ++ udp ++ m) 3 = 0 := by
        rw [byteAt_headers h (by decide), clear.2]
      have put (key : List Bool) : lastPut (ctl ++ ip ++ udp ++ m) o.store key = Option.none := by
        rw [lastPut, messagePuts, none]
        rfl
      have stray : messageStrays (ctl ++ ip ++ udp ++ m) o.store = [] := by
        rw [messageStrays, none]
        rfl
      have entries : (∀ key, o.store key = (lastPut m o.store key).or (o.store key))
          ↔ ∀ key e, lastPut m o.store key = some e → o.store key = some e := by
        refine Iff.trans ?_ LongestPrefix.insertAll_eq_self_iff
        rw [funext_iff]
        refine forall_congr' fun key => ?_
        rw [LongestPrefix.insertAll_apply]
        exact eq_comm
      have strays : o.stray = (messageStrays m o.store).getLast?.or o.stray
          ↔ messageStrays m o.store = [] :=
        eq_comm.trans records.stray_kept_iff
      rw [SameContent]
      simp only [put, stray, Option.none_or, List.getLast?_nil, entries, strays]
  | mapRequest =>
      intro _
      have unset : (byteAt (ctl ++ ip ++ udp ++ m) 0).getLsbD 1 = false := by
        rw [byteAt_headers h (by decide)]
        exact clear.1
      rw [SameContent, SameRequest, unset]
      exact ⟨fun same => same.1.symm, fun same => ⟨same.symm, nofun⟩⟩
  | dropped => exact fun _ => Iff.rfl

end

/-- A LISP header of type 8. -/
def testCtl : List Byte := [0x80, 0, 0, 0]

/-- An IPv4 header without options, from 192.0.2.2 to 192.0.2.3. -/
def testIp : List Byte :=
  [0x45, 0, 0, 68, 0, 0, 0, 0, 64, 17, 0, 0, 192, 0, 2, 2, 192, 0, 2, 3]

/-- A UDP header between control ports. -/
def testUdp : List Byte := [0x10, 0xf6, 0x10, 0xf6, 0, 48, 0, 0]

theorem testCtl_clear : ReservedClear testCtl := ⟨rfl, rfl⟩

theorem testEcapHeader : EcapHeader testCtl testIp testUdp where
  control := rfl
  type := by decide
  inner := Or.inl ⟨rfl, rfl⟩
  udp := rfl

end Lixy
