import Lixy.Daemon.Events
import Lixy.Messages.RecordReturns

/-! Events with valid fields: Map-Replies whose records are whole and have known families and
lengths in range, next to the events that the daemon makes valid by itself. Without orphans
in the table they all succeed, and leave none.
-/

namespace Lixy

open ByteStrings
open EventRuns (run Reachable)

-----------------------------------------------------------------------------------------
-- Valid records and replies
-----------------------------------------------------------------------------------------

/-- A record as the protocol has it: its bytes are there, its EID prefix fits its family,
each locator is of a known family, and an action of a negative record is a known one.
-/
structure ValidRecord (pkt : List Byte) (record : Nat) : Prop where
  inside : RecordInside pkt record
  eid : ValidEid pkt record
  locators : EachLocator pkt
    (fun lisploc => locatorAfi pkt lisploc = lispAfiIpv4 ∨ locatorAfi pkt lisploc = lispAfiIpv6)
    (recordLocatorCount pkt record) (recordLocators pkt record)
  action : recordLocatorCount pkt record = 0 → recordAct pkt record ≤ 3

instance (pkt : List Byte) (record : Nat) : Decidable (ValidRecord pkt record) :=
  decidable_of_iff
    (RecordInside pkt record ∧ ValidEid pkt record
      ∧ EachLocator pkt
          (fun lisploc =>
            locatorAfi pkt lisploc = lispAfiIpv4 ∨ locatorAfi pkt lisploc = lispAfiIpv6)
          (recordLocatorCount pkt record) (recordLocators pkt record)
      ∧ (recordLocatorCount pkt record = 0 → recordAct pkt record ≤ 3))
    ⟨fun ⟨inside, eid, locators, action⟩ => ⟨inside, eid, locators, action⟩,
      fun h => ⟨h.inside, h.eid, h.locators, h.action⟩⟩

/-- A Map-Reply all of whose records are valid. -/
structure ValidReply (pkt : List Byte) : Prop where
  dispatched : dispatch pkt = .ok .mapReply
  header : sizeofLispMapReply ≤ pkt.length
  records : EachRecord pkt (ValidRecord pkt) (byteAt pkt 3).toNat sizeofLispMapReply

instance (pkt : List Byte) : Decidable (ValidReply pkt) :=
  decidable_of_iff
    (dispatch pkt = .ok .mapReply ∧ sizeofLispMapReply ≤ pkt.length
      ∧ EachRecord pkt (ValidRecord pkt) (byteAt pkt 3).toNat sizeofLispMapReply)
    ⟨fun ⟨dispatched, header, records⟩ => ⟨dispatched, header, records⟩,
      fun h => ⟨h.dispatched, h.header, h.records⟩⟩

/-- A Map-Reply with one record, for 10.0.0.0/8, with one locator, 192.0.2.1. -/
def tenReply : List Byte :=
  [0x28, 0, 0, 1, 0, 0, 0, 0, 0, 0, 0, 0,
    0, 0, 0, 10, 1, 8, 0, 0, 0, 0, 0, 1, 10, 0, 0, 0,
    1, 100, 0, 0, 0, 5, 0, 1, 192, 0, 2, 1]

/-- The sample reply is valid. -/
example : ValidReply tenReply := by decide

/-- A Map-Reply with one record, for 10.1.0.0/16, with one locator, 192.0.2.2. -/
def sixteenReply : List Byte :=
  [0x28, 0, 0, 1, 0, 0, 0, 0, 0, 0, 0, 0,
    0, 0, 0, 10, 1, 16, 0, 0, 0, 0, 0, 1, 10, 1, 0, 0,
    1, 100, 0, 0, 0, 5, 0, 1, 192, 0, 2, 2]

/-- A Map-Reply with one negative record, NATIVE, for 10.0.0.0/8. -/
def tenNative : List Byte :=
  [0x28, 0, 0, 1, 0, 0, 0, 0, 0, 0, 0, 0,
    0, 0, 0, 10, 0, 8, 0x20, 0, 0, 0, 0, 1, 10, 0, 0, 0]

/-- A packet to 10.0.0.1. -/
def tenPacket : RawPacket :=
  { etherType := ethPIp, ipTtl := 64, ipDst := inAddr 10 0 0 1, ip6Hlim := 0
    ip6Dst := zeros 16, scopeLink := false, stale := .zero, garbage := .zero }

/-- The destination 10.0.0.0/8. -/
def tenNet : Destination :=
  { family := afInet, address := setSin (inAddr 10 0 0 0) (zeros 16), bitlen := some 8 }

/-- The destination 10.128.0.0/9. -/
def nineNet : Destination :=
  { family := afInet, address := setSin (inAddr 10 128 0 0) (zeros 16), bitlen := some 9 }

/-- An event with valid fields. Commands and packets always have them. -/
def ValidEvent : Event → Prop
  | .message _ buf => ValidReply buf
  | _ => True

/-- The family of a valid EID is known. -/
theorem ValidEid.known {pkt : List Byte} {record : Nat} (h : ValidEid pkt record)
    : recordAfi pkt record = lispAfiIpv4 ∨ recordAfi pkt record = lispAfiIpv6 :=
  h.imp And.left And.left

/-- A prefix of a valid EID has a copy. -/
theorem ValidEid.copies {pkt : List Byte} {record : Nat} {pfx : Prefix} (h : ValidEid pkt record)
    (parsed : recordPrefix pkt record = .ok pfx)
    : (refPrefix pfx).isSome :=
  (recordPrefix_eq_ok.mp parsed).2.known h.known

-----------------------------------------------------------------------------------------
-- Valid events succeed
-----------------------------------------------------------------------------------------

/-- A table in order that has no orphans. -/
abbrev Clean (lisp : Lisp) : Prop := TableOk lisp.rib ∧ lisp.rib.NoOrphans

theorem clean_start : Clean Lisp.start := ⟨tableOk_createMaptable, nofun⟩

/-- A valid record is processed and leaves no orphan. -/
theorem ValidRecord.processes {pkt : List Byte} {record : Nat} {lisp : Lisp}
    (valid : ValidRecord pkt record) (clean : Clean lisp)
    : ∃ lisp' next more, mapReplyRecord pkt record lisp = .ok (lisp', next, more)
        ∧ Clean lisp' := by
  obtain ⟨pfx, parsed⟩ := valid.inside.parses
  obtain ⟨lisp', next, more, done⟩ := mapReplyRecord_total clean.1 clean.2 valid.inside parsed
    valid.action (fun _ => (valid.eid.prefix_valid parsed).bitlen_le)
  have effect := (mapReplyRecord_effect done).2
  exact ⟨lisp', next, more, done, (effect.writes clean.1).1,
    effect.noOrphans clean.1 clean.2 (fun _ parsed => valid.eid.copies parsed)⟩

/-- A valid Map-Reply is processed and leaves no orphan. -/
theorem ValidReply.processes {pkt : List Byte} {lisp : Lisp} (valid : ValidReply pkt)
    (clean : Clean lisp)
    : ∃ lisp', processLispMapMessage pkt lisp = .ok lisp' ∧ Clean lisp' := by
  obtain ⟨lisp', next, done, clean'⟩ := (valid.records.guarded lisp).progress
    (fun _ _ clean valid => valid.processes clean) clean
  have count : rd pkt 3 = .ok (byteAt pkt 3) :=
    rd_eq_ok.mpr ⟨Nat.lt_of_lt_of_le (by decide) valid.header, rfl⟩
  refine ⟨lisp', ?_, clean'⟩
  simp [processLispMapMessage, valid.dispatched, processLispMapReply, count, done, bind,
    Except.bind, pure, Except.pure]

/-- A packet is processed. -/
theorem lispRawPacketThread_total {lisp : Lisp} (frame : RawPacket) (clean : Clean lisp)
    : ∃ lisp', lispRawPacketThread frame lisp = .ok lisp' := by
  rw [lispRawPacketThread]
  split
  · exact ⟨_, rfl⟩
  · next dstprefix destination =>
      have short := (RawPacket.dstprefix_valid destination).bitlen_le
      obtain ⟨rib, update⟩ := updateMapnode_total clean.1 clean.2 short
        { frame.garbage with state := .queried }
      rcases searchMapnode_spec clean.1 short with ⟨_, search⟩ | ⟨e, z, _, search, _⟩
      · simp only [search, installMapnodeQueried, update, bind, Except.bind]
        exact ⟨_, rfl⟩
      · simp only [search, bind, Except.bind]
        exact ⟨_, rfl⟩

/-- A route command is processed. -/
theorem cmdInstallRoute_total {lisp : Lisp} (dst : Destination) (addr : SockaddrStorage)
    (clean : Clean lisp)
    : ∃ lisp', cmdInstallRoute dst addr lisp = .ok lisp' := by
  rw [cmdInstallRoute]
  split
  · exact ⟨_, rfl⟩
  · next dstPrefix destination =>
      obtain ⟨rib, update⟩ := updateMapnode_total clean.1 clean.2
        (Destination.dstPrefix_valid destination).bitlen_le
        { Mapnode.zero with state := .static, ttl := 0, addr }
      simp only [installMapnodeStatic, bind, Except.bind]
      dsimp only at update
      rw [update]
      dsimp only
      split <;> exact ⟨_, rfl⟩

/-- A static delete returns. -/
theorem uninstallMapnodeStatic_total {lisp : Lisp} {pfx : Prefix} (clean : Clean lisp)
    (short : pfx.bitlen ≤ 128)
    : ∃ result, uninstallMapnodeStatic lisp pfx = .ok result := by
  obtain ⟨rib, deletion⟩ := deleteMapnode_total clean.1 clean.2 short
  rw [uninstallMapnodeStatic]
  rcases searchMapnode_spec clean.1 short with ⟨_, search⟩ | ⟨e, z, _, search, _⟩
  · simp only [search, bind, Except.bind]
    exact ⟨_, rfl⟩
  · simp only [search, deletion, bind, Except.bind]
    split <;> exact ⟨_, rfl⟩

/-- An uninstall command is processed. -/
theorem cmdUninstallRoute_total {lisp : Lisp} (dst : Destination) (clean : Clean lisp)
    : ∃ lisp', cmdUninstallRoute dst lisp = .ok lisp' := by
  rw [cmdUninstallRoute]
  split
  · exact ⟨_, rfl⟩
  · next dstPrefix destination =>
      exact Fault.returns_bind
        (uninstallMapnodeStatic_total clean (Destination.dstPrefix_valid destination).bitlen_le) _

/-- A valid event succeeds on a clean table and leaves it clean. -/
theorem ValidEvent.processes {lisp : Lisp} {ev : Event} (valid : ValidEvent ev)
    (clean : Clean lisp)
    : ∃ lisp', step lisp ev = .ok lisp' ∧ Clean lisp' := by
  cases ev with
  | message len buf =>
      rw [step, lispMapMessageThread]
      split
      · exact ⟨lisp, rfl, clean⟩
      · exact ValidReply.processes valid clean
  | packet frame =>
      obtain ⟨lisp', done⟩ := lispRawPacketThread_total frame clean
      obtain ⟨orphans, writing⟩ := lispRawPacketThread_writes clean.1 done
      exact ⟨lisp', done, writing.1, orphans clean.2⟩
  | installRoute dst addr =>
      obtain ⟨lisp', done⟩ := cmdInstallRoute_total dst addr clean
      obtain ⟨orphans, writing⟩ := cmdInstallRoute_writes clean.1 done
      exact ⟨lisp', done, writing.1, orphans clean.2⟩
  | uninstallRoute dst =>
      obtain ⟨lisp', done⟩ := cmdUninstallRoute_total dst clean
      obtain ⟨orphans, writing⟩ := cmdUninstallRoute_writes clean.1 done
      exact ⟨lisp', done, writing.1, orphans clean.2⟩
  | sweep =>
      rcases sweep_cases clean.1 with ⟨_, orphaned, _⟩ | ⟨w, pass, ok', orphans, _⟩
      · exact absurd clean.2 orphaned
      · rw [step, pass]
        exact ⟨w.st, rfl, ok', orphans clean.2⟩

/-- Valid events run through from a clean table, and leave it clean. -/
theorem run_valid {lisp : Lisp} {events : List Event} (valid : ∀ ev ∈ events, ValidEvent ev)
    (clean : Clean lisp)
    : ∃ final, run step lisp events = .ok final ∧ Clean final :=
  (EventRuns.guarded_of_forall valid lisp).progress
    (fun _ _ clean valid => valid.processes clean) clean

/-- A table reached by valid events is clean. -/
theorem clean_of_valid {lisp : Lisp} {events : List Event}
    (valid : ∀ ev ∈ events, ValidEvent ev) (done : run step Lisp.start events = .ok lisp)
    : Clean lisp := by
  obtain ⟨final, ran, clean⟩ := run_valid valid clean_start
  obtain rfl := Except.ok.inj (done.symm.trans ran)
  exact clean

-----------------------------------------------------------------------------------------
-- Valid events store valid prefixes
-----------------------------------------------------------------------------------------

/-- Every stored prefix is valid. -/
def View.StoresValid (v : View) : Prop := ∀ key e, v.store key = some e → e.1.Valid

section

variable {v : View} {e : Prefix × Mapnode}

theorem View.StoresValid.put (h : v.StoresValid) (valid : e.1.Valid) : (v.put e).StoresValid := by
  intro key e' stored
  by_cases here : key = e.1.key
  · subst here
    obtain rfl : e = e' := by simpa using stored
    exact valid
  · exact h key e' ((LongestPrefix.insert_of_ne v.store e here).symm.trans stored)

theorem View.StoresValid.remove (h : v.StoresValid) : (v.remove e).StoresValid := by
  intro key e' stored
  have ne : key ≠ e.1.key := by
    rintro rfl
    simp at stored
  exact h key e' ((LongestPrefix.erase_of_ne v.store ne).symm.trans stored)

/-- The prefix that a writer may store is valid. -/
def Writer.NamesValid : Writer → Prop
  | .learn pfx _ => pfx.Valid
  | .deny pfx _ => pfx.Valid
  | .query pfx _ => pfx.Valid
  | .pin pfx _ => pfx.Valid
  | _ => True

/-- A writer that names a valid prefix stores valid prefixes. -/
theorem View.StoresValid.write {w : Writer} (h : v.StoresValid) (names : w.NamesValid)
    (enabled : w.Enabled v)
    : (w.write v).StoresValid := by
  have puts {pfx : Prefix} {e : Prefix × Mapnode} (valid : pfx.Valid) (puts : v.Puts pfx e)
      : (v.put e).StoresValid :=
    h.put (puts.valid (fun old stored => h _ old stored) fun _ => valid)
  have rewritten {e : Prefix × Mapnode} (stored : v.store e.1.key = some e) (mn : Mapnode)
      : (v.put (e.1, mn)).StoresValid :=
    h.put (show e.1.Valid from h _ e stored)
  cases w with
  | idle => exact h
  | stray pfx => exact h
  | learn pfx e => exact puts names enabled.1
  | refresh e => exact rewritten enabled _
  | deny pfx e => exact puts names enabled.1
  | query pfx e => exact puts names enabled.1
  | pin pfx e => exact puts names enabled.1
  | unpin pfx e => exact h.remove
  | age e =>
      simp only [Writer.write]
      split
      · exact h
      · split
        · split
          · exact h.remove
          · exact h.remove
        · exact rewritten enabled _

end

/-- A table in order whose prefixes are valid. -/
abbrev WellStored (lisp : Lisp) : Prop := TableOk lisp.rib ∧ lisp.view.StoresValid

/-- A valid record names valid prefixes. -/
theorem ValidRecord.wellStored {pkt : List Byte} {record next : Nat} {lisp lisp' : Lisp}
    {more : Bool} (valid : ValidRecord pkt record) (h : WellStored lisp)
    (done : mapReplyRecord pkt record lisp = .ok (lisp', next, more))
    : WellStored lisp' := by
  obtain ⟨ok', w, enabled, view, source⟩ := (mapReplyRecord_effect done).2.writes h.1
  refine ⟨ok', view ▸ h.2.write ?_ enabled⟩
  cases w with
  | learn pfx e => exact valid.eid.prefix_valid source.2.1
  | deny pfx e => exact valid.eid.prefix_valid source.2.1
  | query pfx e => exact source.elim
  | pin pfx e => exact source.elim
  | _ => trivial

/-- A valid event names valid prefixes. -/
theorem ValidEvent.wellStored {lisp lisp' : Lisp} {ev : Event} (valid : ValidEvent ev)
    (h : WellStored lisp) (done : step lisp ev = .ok lisp')
    : WellStored lisp' := by
  -- every event but a message names its prefix by itself
  have written (names : ∀ w, EventWriter ev w → w.NamesValid) : WellStored lisp' := by
    obtain ⟨ok', ws, run, sources⟩ := step_writes h.1 done
    exact ⟨ok', run.invariant sources
      (fun v w stores source enabled => stores.write (names w source) enabled) h.2⟩
  cases ev with
  | message len buf =>
      simp only [step, lispMapMessageThread] at done
      split at done
      · obtain rfl := Except.ok.inj done
        exact h
      · rcases processLispMapMessage_cases done with ⟨_, next, reply⟩ | ⟨_, rib, view⟩
        · exact (valid.records.guarded lisp).invariant
            (fun _ _ _ _ _ inv valid done => valid.wellStored inv done) h
            (processLispMapReply_records reply)
        · exact ⟨rib ▸ h.1, view ▸ h.2⟩
  | packet frame =>
      refine written fun w source => ?_
      rcases source with rfl | ⟨pfx, e, destination, rfl⟩
      · trivial
      · exact RawPacket.dstprefix_valid destination
  | installRoute dst addr =>
      refine written fun w source => ?_
      rcases source with rfl | ⟨pfx, e, destination, rfl, _⟩
      · trivial
      · exact Destination.dstPrefix_valid destination
  | uninstallRoute dst =>
      refine written fun w source => ?_
      rcases source with rfl | ⟨pfx, e, _, rfl⟩ <;> trivial
  | sweep =>
      refine written fun w source => ?_
      obtain ⟨e, rfl⟩ := source
      trivial

/-- After valid events all entries have valid prefixes. -/
theorem entries_valid {lisp : Lisp} {events : List Event} (valid : ∀ ev ∈ events, ValidEvent ev)
    (done : run step Lisp.start events = .ok lisp) {e : Prefix × Mapnode}
    (mem : e ∈ lisp.rib.entries)
    : e.1.Valid := by
  have start : WellStored Lisp.start := by
    refine ⟨tableOk_createMaptable, fun key e stored => ?_⟩
    cases (show Lisp.start.view.store key = none from rfl).symm.trans stored
  obtain ⟨ok, stores⟩ : WellStored lisp :=
    (EventRuns.guarded_of_forall valid Lisp.start).invariant
      (fun _ _ _ inv valid done => valid.wellStored inv done) start done
  exact stores _ e (ok.store_self mem)

end Lixy
