import Lixy.Foundation.EventRuns
import Lixy.Messages.RecordEffects

/-! The daemon as a state machine: the rounds of its threads and the commands that change
the map table, one event each, and what every reachable table has in common.
-/

namespace Lixy

open ByteStrings
open LongestPrefix (best)
open EventRuns (run Reachable)

-----------------------------------------------------------------------------------------
-- Observed packets
-----------------------------------------------------------------------------------------

abbrev ethPIp : Nat := 0x0800
abbrev ethPIpv6 : Nat := 0x86DD

/-- One round of `lisp_raw_packet_thread`: the header fields it reads from the frame, the
answer of `is_route_scope_link` for the destination, and what is uninitialised or left over
when the round starts.
-/
structure RawPacket where
  etherType : Nat
  ipTtl : Byte
  ipDst : Bytes 4
  ip6Hlim : Byte
  ip6Dst : Bytes 16
  scopeLink : Bool
  /-- `dstprefix` as the round before left it. -/
  stale : Prefix
  /-- The mapnode as `malloc` returns it. -/
  garbage : Mapnode

/-- The host prefix of a destination that the thread asks about. -/
def RawPacket.dstprefix (frame : RawPacket) : Option Prefix :=
  if frame.etherType = ethPIp then
    if frame.ipTtl < 1 then
      none
    else if frame.scopeLink then
      none
    else
      some { family := afInet, bitlen := 32, refCount := 0
             add := setSin frame.ipDst frame.stale.add }
  else if frame.etherType = ethPIpv6 then
    if frame.ip6Hlim < 1 then
      none
    else if frame.scopeLink then
      none
    else
      some { family := afInet6, bitlen := 128, refCount := 0, add := frame.ip6Dst }
  else
    none

/-- The body of the loop in `lisp_raw_packet_thread` -/
def lispRawPacketThread (frame : RawPacket) (lisp : Lisp) : Except Fault Lisp := do
  match frame.dstprefix with
  | none => return lisp
  | some dstprefix =>
      match ← searchMapnode lisp.rib dstprefix with
      | some _ => return lisp
      | none =>
          let rib ← installMapnodeQueried lisp.rib dstprefix frame.garbage
          return sendMapRequest dstprefix { lisp with rib }

-----------------------------------------------------------------------------------------
-- Route commands
-----------------------------------------------------------------------------------------

/-- `ascii2prefix`, from the address that `inet_pton` makes of the text and the number
behind the slash, if there is one.
-/
def ascii2prefix (family : Nat) (address : Bytes 16) (bitlen : Option Nat) : Option Prefix :=
  if family = afInet then
    newPrefix afInet address (min (bitlen.getD 32) 32)
  else if family = afInet6 then
    newPrefix afInet6 address (min (bitlen.getD 128) 128)
  else
    none

/-- A route command's destination, as text and then as `inet_pton` reads it. -/
structure Destination where
  family : Nat
  address : Bytes 16
  bitlen : Option Nat

/-- The prefix of a destination. -/
def Destination.dstPrefix (dst : Destination) : Option Prefix :=
  ascii2prefix dst.family dst.address dst.bitlen

/-- `cmd_install_route`, with the locator's address as `getaddrinfo` returns it -/
def cmdInstallRoute (dst : Destination) (addr : SockaddrStorage) (lisp : Lisp)
    : Except Fault Lisp :=
  match dst.dstPrefix with
  | none => .ok lisp
  | some dstPrefix => installMapnodeStatic lisp dstPrefix addr

/-- `cmd_uninstall_route` -/
def cmdUninstallRoute (dst : Destination) (lisp : Lisp) : Except Fault Lisp :=
  match dst.dstPrefix with
  | none => .ok lisp
  | some dstPrefix => do
      let (lisp, _) ← uninstallMapnodeStatic lisp dstPrefix
      return lisp

-----------------------------------------------------------------------------------------
-- Control messages and the state machine
-----------------------------------------------------------------------------------------

/-- One round of `lisp_map_message_thread`: `recv` put `len` bytes at the start of `buf`. -/
def lispMapMessageThread (len : Nat) (buf : List Byte) (lisp : Lisp) : Except Fault Lisp :=
  if len < sizeofIp + sizeofLispControl then
    .ok lisp
  else
    processLispMapMessage buf lisp

/-- What the daemon reacts to. -/
inductive Event
  | message (len : Nat) (buf : List Byte)
  | packet (frame : RawPacket)
  | installRoute (dst : Destination) (addr : SockaddrStorage)
  | uninstallRoute (dst : Destination)
  | sweep

/-- The daemon's reaction. -/
def step (lisp : Lisp) : Event → Except Fault Lisp
  | .message len buf => lispMapMessageThread len buf lisp
  | .packet frame => lispRawPacketThread frame lisp
  | .installRoute dst addr => cmdInstallRoute dst addr lisp
  | .uninstallRoute dst => cmdUninstallRoute dst lisp
  | .sweep => do
      let w ← Lixy.sweep lisp
      return w.st

-----------------------------------------------------------------------------------------
-- Every event is a run of writers
-----------------------------------------------------------------------------------------

/-- A packet's destination is a host prefix. -/
theorem RawPacket.dstprefix_valid {frame : RawPacket} {pfx : Prefix}
    (h : frame.dstprefix = some pfx)
    : pfx.Valid := by
  unfold RawPacket.dstprefix at h
  split at h
  · split at h
    · cases h
    · split at h
      · cases h
      · obtain rfl := Option.some.inj h
        exact Or.inl ⟨rfl, Nat.le_refl 32⟩
  · split at h
    · split at h
      · cases h
      · split at h
        · cases h
        · obtain rfl := Option.some.inj h
          exact Or.inr ⟨rfl, Nat.le_refl 128⟩
    · cases h

/-- A command's prefix is valid: its length is cut to the family's. -/
theorem Destination.dstPrefix_valid {dst : Destination} {pfx : Prefix}
    (h : dst.dstPrefix = some pfx)
    : pfx.Valid := by
  unfold Destination.dstPrefix ascii2prefix newPrefix at h
  split at h
  · obtain rfl := Option.some.inj h
    exact Or.inl ⟨rfl, Nat.min_le_right _ _⟩
  · split at h
    · obtain rfl := Option.some.inj h
      exact Or.inr ⟨rfl, Nat.min_le_right _ _⟩
    · cases h

/-- How a writer comes from an event. -/
def EventWriter : Event → Writer → Prop
  | .message _ buf, w => ∃ record v, RecordWriter buf record v w
  | .packet frame, w => w = .idle ∨ ∃ pfx e, frame.dstprefix = some pfx ∧ w = .query pfx e
  | .installRoute dst addr, w =>
      w = .idle ∨ ∃ pfx e, dst.dstPrefix = some pfx ∧ w = .pin pfx e ∧ e.2.addr = addr
  | .uninstallRoute dst, w => w = .idle ∨ ∃ pfx e, dst.dstPrefix = some pfx ∧ w = .unpin pfx e
  | .sweep, w => ∃ e, w = .age e

/-- An event that keeps the table and runs writers of its kind. -/
abbrev Writing (lisp : Lisp) (ev : Event) (lisp' : Lisp) : Prop :=
  TableOk lisp'.rib ∧ ∃ ws, Writes lisp.view ws lisp'.view ∧ ∀ w ∈ ws, EventWriter ev w

/-- An event that keeps the table and runs one writer of its kind. -/
abbrev WritingOnce (lisp : Lisp) (ev : Event) (lisp' : Lisp) : Prop :=
  TableOk lisp'.rib
    ∧ ∃ w : Writer, w.Enabled lisp.view ∧ lisp'.view = w.write lisp.view ∧ EventWriter ev w

theorem WritingOnce.writing {lisp lisp' : Lisp} {ev : Event} (h : WritingOnce lisp ev lisp')
    : Writing lisp ev lisp' := by
  obtain ⟨ok', w, enabled, view, source⟩ := h
  exact ⟨ok', [w], view ▸ Writes.single enabled, fun _ h => List.mem_singleton.mp h ▸ source⟩

/-- A control message is a Map-Reply, or it leaves the table and the routes alone. -/
theorem processLispMapMessage_cases {pkt : List Byte} {lisp lisp' : Lisp}
    (done : processLispMapMessage pkt lisp = .ok lisp')
    : (dispatch pkt = .ok .mapReply ∧ ∃ next, processLispMapReply pkt lisp = .ok (lisp', next))
      ∨ (dispatch pkt ≠ .ok .mapReply ∧ lisp'.rib = lisp.rib ∧ lisp'.view = lisp.view) := by
  obtain ⟨which, dispatched, done⟩ := bind_eq_ok.mp done
  rw [dispatched]
  cases which with
  | mapReply =>
      obtain ⟨⟨after, next⟩, reply, done⟩ := bind_eq_ok.mp done
      obtain rfl := pure_eq_ok.mp done
      exact Or.inl ⟨rfl, next, reply⟩
  | mapRequest =>
      obtain ⟨call, _, done⟩ := bind_eq_ok.mp done
      cases call with
      | none =>
          obtain rfl := pure_eq_ok.mp done
          exact Or.inr ⟨nofun, rfl, rfl⟩
      | some call =>
          obtain rfl := pure_eq_ok.mp done
          exact Or.inr ⟨nofun, rfl, rfl⟩
  | dropped =>
      obtain rfl := pure_eq_ok.mp done
      exact Or.inr ⟨nofun, rfl, rfl⟩

/-- The record loop of a Map-Reply that is processed. -/
theorem processLispMapReply_records {pkt : List Byte} {lisp lisp' : Lisp} {next : Nat}
    (done : processLispMapReply pkt lisp = .ok (lisp', next))
    : mapReplyRecords pkt (byteAt pkt 3).toNat sizeofLispMapReply lisp = .ok (lisp', next) := by
  obtain ⟨count, read, done⟩ := bind_eq_ok.mp done
  obtain ⟨_, rfl⟩ := rd_eq_ok.mp read
  exact done

/-- A packet whose destination nothing covers queries it. -/
theorem lispRawPacketThread_writes {lisp lisp' : Lisp} {frame : RawPacket}
    (ok : TableOk lisp.rib) (done : lispRawPacketThread frame lisp = .ok lisp')
    : (lisp.rib.NoOrphans → lisp'.rib.NoOrphans) ∧ WritingOnce lisp (.packet frame) lisp' := by
  unfold lispRawPacketThread at done
  split at done
  · obtain rfl := pure_eq_ok.mp done
    exact ⟨id, ok, .idle, trivial, rfl, Or.inl rfl⟩
  · next dstprefix destination =>
      have valid := RawPacket.dstprefix_valid destination
      obtain ⟨found, search, done⟩ := bind_eq_ok.mp done
      split at done
      · obtain rfl := pure_eq_ok.mp done
        exact ⟨id, ok, .idle, trivial, rfl, Or.inl rfl⟩
      · obtain ⟨missed, _⟩ | ⟨_, _, _, hit, _⟩ := searchMapnode_spec ok valid.bitlen_le
        · obtain ⟨rib, install, done⟩ := bind_eq_ok.mp done
          obtain rfl := pure_eq_ok.mp done
          obtain ⟨ok', orphans, e, enabled, view⟩ :=
            installMapnodeQueried_writes ok valid missed install
          exact ⟨orphans, ok', _, enabled, view, Or.inr ⟨_, e, destination, rfl⟩⟩
        · cases hit.symm.trans search

/-- An install command pins its prefix. -/
theorem cmdInstallRoute_writes {lisp lisp' : Lisp} {dst : Destination} {addr : SockaddrStorage}
    (ok : TableOk lisp.rib) (done : cmdInstallRoute dst addr lisp = .ok lisp')
    : (lisp.rib.NoOrphans → lisp'.rib.NoOrphans)
      ∧ WritingOnce lisp (.installRoute dst addr) lisp' := by
  unfold cmdInstallRoute at done
  split at done
  · obtain rfl := Except.ok.inj done
    exact ⟨id, ok, .idle, trivial, rfl, Or.inl rfl⟩
  · next dstPrefix destination =>
      obtain ⟨ok', orphans, w, enabled, view, source⟩ :=
        installMapnodeStatic_writes ok (Destination.dstPrefix_valid destination) done
      refine ⟨orphans, ok', w, enabled, view, ?_⟩
      exact source.imp id (fun ⟨e, same, addr⟩ => ⟨dstPrefix, e, destination, same, addr⟩)

/-- An uninstall command unpins what matches its prefix best. -/
theorem cmdUninstallRoute_writes {lisp lisp' : Lisp} {dst : Destination}
    (ok : TableOk lisp.rib) (done : cmdUninstallRoute dst lisp = .ok lisp')
    : (lisp.rib.NoOrphans → lisp'.rib.NoOrphans)
      ∧ WritingOnce lisp (.uninstallRoute dst) lisp' := by
  unfold cmdUninstallRoute at done
  split at done
  · obtain rfl := Except.ok.inj done
    exact ⟨id, ok, .idle, trivial, rfl, Or.inl rfl⟩
  · next dstPrefix destination =>
      obtain ⟨⟨after, removed⟩, uninstall, done⟩ := bind_eq_ok.mp done
      obtain rfl := pure_eq_ok.mp done
      obtain ⟨ok', orphans, w, enabled, view, source⟩ := uninstallMapnodeStatic_writes ok
        (Destination.dstPrefix_valid destination).bitlen_le uninstall
      refine ⟨orphans, ok', w, enabled, view, ?_⟩
      exact source.imp id (fun ⟨e, same⟩ => ⟨dstPrefix, e, destination, same⟩)

/-- A control message runs writers of its records. -/
theorem lispMapMessageThread_writes {lisp lisp' : Lisp} {len : Nat} {buf : List Byte}
    (ok : TableOk lisp.rib) (done : lispMapMessageThread len buf lisp = .ok lisp')
    : Writing lisp (.message len buf) lisp' := by
  unfold lispMapMessageThread at done
  split at done
  · obtain rfl := Except.ok.inj done
    exact ⟨ok, [], rfl, nofun⟩
  · rcases processLispMapMessage_cases done with ⟨_, next, reply⟩ | ⟨_, rib, view⟩
    · exact mapReplyRecords_writes ok (processLispMapReply_records reply)
    · exact ⟨rib ▸ ok, [], view, nofun⟩

/-- Every event keeps the table in order and runs writers of its kind. -/
theorem step_writes {lisp lisp' : Lisp} {ev : Event} (ok : TableOk lisp.rib)
    (done : step lisp ev = .ok lisp')
    : Writing lisp ev lisp' := by
  cases ev with
  | message len buf => exact lispMapMessageThread_writes ok done
  | packet frame => exact (lispRawPacketThread_writes ok done).2.writing
  | installRoute dst addr => exact (cmdInstallRoute_writes ok done).2.writing
  | uninstallRoute dst => exact (cmdUninstallRoute_writes ok done).2.writing
  | sweep =>
      obtain ⟨w, pass, done⟩ := bind_eq_ok.mp done
      obtain rfl := pure_eq_ok.mp done
      obtain ⟨ok', _, run⟩ := sweep_writes ok pass
      refine ⟨ok', _, run, fun w' hw => ?_⟩
      obtain ⟨e, _, rfl⟩ := List.mem_map.mp hw
      exact ⟨e, rfl⟩

/-- Every reachable table is in order. -/
theorem tableOk_of_reachable {lisp : Lisp} (h : Reachable step Lisp.start lisp)
    : TableOk lisp.rib :=
  @Reachable.invariant _ _ _ _ (fun lisp => TableOk lisp.rib) _ _
    (fun _ _ _ ok done => (step_writes ok done).1) tableOk_createMaptable h

end Lixy
