import Lixy.Daemon.ValidEvents

/-! What Map-Replies of any content do to the map cache: which records fail an assertion or
leave an entry that no lookup expects, and that all others keep the cache in order.
-/

namespace Lixy

open ByteStrings
open PatriciaNode
open LongestPrefix (best)
open EventRuns (run Reachable Guarded)

-----------------------------------------------------------------------------------------
-- Sound caches
-----------------------------------------------------------------------------------------

/-- A node that carries a mapnode has a prefix that fits its family, and an ACTIVE mapnode
has an address of a known family.
-/
def Intact (lisp : Lisp) : Prop :=
  ∀ c ∈ lisp.head.carriers, (∃ pfx, c.1 = some pfx ∧ pfx.Valid)
    ∧ (c.2.state = .active → c.2.addr.family = afInet ∨ c.2.addr.family = afInet6)

/-- The same of an entry. -/
def SoundEntry (e : Prefix × Mapnode) : Prop :=
  e.1.Valid ∧ (e.2.state = .active → e.2.addr.family = afInet ∨ e.2.addr.family = afInet6)

/-- All stored entries are sound. -/
def View.Sound (v : View) : Prop := ∀ key e, v.store key = some e → e.1.key = key ∧ SoundEntry e

/-- A clean table with sound entries only. -/
abbrev Guardable (lisp : Lisp) : Prop := Clean lisp ∧ lisp.view.Sound

/-- The mapnodes under a prefix are the entries, by induction on the tree. -/
theorem mem_carriers {n : PatriciaNode Mapnode} {pfx : Prefix} {mn : Mapnode}
    : (some pfx, mn) ∈ n.carriers ↔ (pfx, mn) ∈ n.entries := by
  induction n with
  | null => simp
  | node a bit p data l r ihl ihr =>
      have own : (some pfx, mn) ∈ nodeCarrier p data ↔ (pfx, mn) ∈ nodeEntry p data := by
        cases p <;> cases data <;> simp [nodeCarrier, nodeEntry]
      simp only [carriers_node, entries_node, List.mem_append, own, ihl, ihr]

/-- A clean table with sound entries is intact. -/
theorem Guardable.intact {lisp : Lisp} (h : Guardable lisp) : Intact lisp := by
  rintro ⟨p, mn⟩ mem
  obtain ⟨pfx, rfl⟩ := Option.isSome_iff_exists.mp (h.1.2 _ mem)
  have stored : lisp.rib.store pfx.key = some (pfx, mn) :=
    h.1.1.store_self (e := (pfx, mn)) (mem_carriers.mp mem)
  obtain ⟨_, valid, family⟩ := h.2 _ _ stored
  exact ⟨⟨pfx, rfl, valid⟩, family⟩

theorem guardable_start : Guardable Lisp.start := by
  refine ⟨clean_start, fun key e stored => ?_⟩
  have empty : Lisp.start.view.store key = none := rfl
  cases empty.symm.trans stored

-----------------------------------------------------------------------------------------
-- Writers that keep a cache sound
-----------------------------------------------------------------------------------------

/-- A sound entry put into a sound cache. -/
theorem View.Sound.insert {v : View} {e : Prefix × Mapnode} (h : v.Sound) (sound : SoundEntry e)
    : (v.put e).Sound := by
  intro key e' stored
  by_cases here : key = e.1.key
  · subst here
    obtain rfl : e = e' := by simpa using stored
    exact ⟨rfl, sound⟩
  · exact h key e' ((LongestPrefix.insert_of_ne v.store e here).symm.trans stored)

/-- An entry removed from a sound cache. -/
theorem View.Sound.remove {v : View} (h : v.Sound) (e : Prefix × Mapnode) : (v.remove e).Sound := by
  intro key e' stored
  have ne : key ≠ e.1.key := by
    rintro rfl
    simp at stored
  exact h key e' ((LongestPrefix.erase_of_ne v.store ne).symm.trans stored)

/-- What a writer has to bring. -/
def Writer.Sound (v : View) : Writer → Prop
  | .learn pfx e =>
      pfx.Valid ∧ (e.2.addr.family = afInet ∨ e.2.addr.family = afInet6)
  | .deny pfx _ => v.store pfx.key = none → pfx.Valid
  | .query pfx _ => pfx.Valid
  | .pin pfx _ => pfx.Valid
  | _ => True

/-- A sound writer keeps a sound cache. -/
theorem View.Sound.write {v : View} {w : Writer} (h : v.Sound) (sound : w.Sound v)
    (enabled : w.Enabled v)
    : (w.write v).Sound := by
  have puts {pfx : Prefix} {e : Prefix × Mapnode} (put : v.Puts pfx e)
      (fresh : v.store pfx.key = none → pfx.Valid)
      : e.1.Valid :=
    put.valid (fun old stored => (h _ old stored).2.1) fresh
  have inactive {pfx : Prefix} {e : Prefix × Mapnode} (put : v.Puts pfx e)
      (fresh : v.store pfx.key = none → pfx.Valid) (state : e.2.state ≠ .active)
      : (v.put e).Sound :=
    h.insert ⟨puts put fresh, fun active => absurd active state⟩
  cases w with
  | idle => exact h
  | stray pfx => exact h
  | learn pfx e => exact h.insert ⟨puts enabled.1 (fun _ => sound.1), fun _ => sound.2⟩
  | refresh e => exact h.insert (h _ e enabled).2
  | deny pfx e =>
      refine inactive enabled.1 sound ?_
      rcases enabled.2 with state | state <;> simp [state]
  | query pfx e => exact inactive enabled.1 (fun _ => sound) (by simp [enabled.2.2])
  | pin pfx e => exact inactive enabled.1 (fun _ => sound) (by simp [enabled.2])
  | unpin pfx e => exact h.remove e
  | age e =>
      simp only [Writer.write]
      split
      · exact h
      · split
        · split
          · exact h.remove e
          · exact h.remove e
        · exact h.insert (h _ e enabled).2

-----------------------------------------------------------------------------------------
-- Safe records
-----------------------------------------------------------------------------------------

/-- A record that does the cache no harm. One without locators has a known action, and, where
that action stores its prefix, a short prefix that is valid or already stored. One with
locators has a short prefix that something covers, or that is valid and comes with a selected
locator of a known family.
-/
def RecordSafe (pkt : List Byte) (record : Nat) (lisp : Lisp) : Prop :=
  ∀ pfx, recordPrefix pkt record = .ok pfx →
    if recordLocatorCount pkt record = 0 then
      recordAct pkt record = 0 ∨ recordAct pkt record = 2
        ∨ (recordAct pkt record = 1 ∨ recordAct pkt record = 3) ∧ pfx.bitlen ≤ 128
          ∧ (ValidEid pkt record ∨ ∃ e ∈ lisp.rib.entries, e.1.key = pfx.key)
    else
      pfx.bitlen ≤ 128
        ∧ ((∃ e ∈ lisp.rib.entries, e.1.key <+: pfx.key)
          ∨ ValidEid pkt record
            ∧ (locatorAfi pkt (recordSelected pkt record) = lispAfiIpv4
              ∨ locatorAfi pkt (recordSelected pkt record) = lispAfiIpv6))

/-- A locator of a known family has an address of that family. -/
theorem lispLocatorPktToLocator_family {pkt : List Byte} {lisploc : Nat} {locator : Locator}
    (done : lispLocatorPktToLocator pkt lisploc = .ok locator)
    (known : locatorAfi pkt lisploc = lispAfiIpv4 ∨ locatorAfi pkt lisploc = lispAfiIpv6)
    : locator.locAddr.family = afInet ∨ locator.locAddr.family = afInet6 := by
  simp only [lispLocatorPktToLocator, bind_eq_ok, rd16_eq_ok, pure_eq_ok] at done
  obtain ⟨afi, ⟨_, same⟩, locAddr, fill, _, _, _, _, _, _, _, _, rfl⟩ := done
  obtain rfl : afi = locatorAfi pkt lisploc := same
  rcases known with ipv4 | ipv6
  · rw [ipv4, lispafiToAf_ipv4, fillSockaddr, if_pos rfl] at fill
    obtain ⟨addr, _, fill⟩ := bind_eq_ok.mp fill
    obtain rfl := pure_eq_ok.mp fill
    exact Or.inl rfl
  · rw [ipv6, lispafiToAf_ipv6, fillSockaddr, if_neg (by decide), if_pos rfl] at fill
    obtain ⟨addr, _, fill⟩ := bind_eq_ok.mp fill
    obtain rfl := pure_eq_ok.mp fill
    exact Or.inr rfl

/-- A safe record without locators that stores its prefix stores a valid one, or stores it
in the place of an entry.
-/
theorem RecordSafe.denied {pkt : List Byte} {record : Nat} {lisp : Lisp} {pfx : Prefix}
    (safe : RecordSafe pkt record lisp) (parsed : recordPrefix pkt record = .ok pfx)
    (empty : recordLocatorCount pkt record = 0)
    (act : recordAct pkt record = 1 ∨ recordAct pkt record = 3)
    : pfx.bitlen ≤ 128
      ∧ (ValidEid pkt record ∨ ∃ e ∈ lisp.rib.entries, e.1.key = pfx.key) := by
  have cases := safe pfx parsed
  rw [if_pos empty] at cases
  rcases cases with zero | two | ⟨_, rest⟩
  · omega
  · omega
  · exact rest

/-- A safe record with locators that finds nothing has a valid prefix and a locator of a
known family.
-/
theorem RecordSafe.learned {pkt : List Byte} {record : Nat} {lisp : Lisp} {pfx : Prefix}
    (safe : RecordSafe pkt record lisp) (ok : TableOk lisp.rib)
    (parsed : recordPrefix pkt record = .ok pfx) (located : recordLocatorCount pkt record ≠ 0)
    (missed : best lisp.rib.store pfx.key = none)
    : ValidEid pkt record
      ∧ (locatorAfi pkt (recordSelected pkt record) = lispAfiIpv4
        ∨ locatorAfi pkt (recordSelected pkt record) = lispAfiIpv6) := by
  have cases := safe pfx parsed
  rw [if_neg located] at cases
  rcases cases.2 with ⟨e, mem, covers⟩ | learned
  · have absent := LongestPrefix.best_eq_none_iff.mp missed _ covers
    cases absent.symm.trans (ok.store_self mem)
  · exact learned

/-- A safe record that is processed leaves no orphan. -/
theorem RecordSafe.noOrphans {pkt : List Byte} {record : Nat} {lisp lisp' : Lisp} {more : Bool}
    (safe : RecordSafe pkt record lisp) (clean : Clean lisp)
    (effect : RecordEffect pkt record lisp lisp' more)
    : lisp'.rib.NoOrphans := by
  cases effect with
  | ignored _ _ _ => exact clean.2
  | asked _ _ _ => exact clean.2
  | denied empty act parsed _ update =>
      obtain ⟨short, stores⟩ := safe.denied parsed empty act
      have storable := (recordPrefix_eq_ok.mp parsed).2.storable short
      refine (updateMapnode_noOrphans clean.1 storable clean.2 update).mpr ?_
      rcases stores with eid | ⟨e, mem, key⟩
      · exact Or.inl (eid.copies parsed)
      · rw [clean.1.store_eq_some_iff.mpr ⟨mem, key⟩]
        exact Or.inr rfl
  | refreshed _ _ search =>
      have short := searchMapnode_short clean.1 search
      rcases searchMapnode_spec clean.1 short with ⟨_, missed⟩ | ⟨e, z, _, hit, holds, locOk, head⟩
      · cases missed.symm.trans search
      · obtain ⟨rfl, rfl⟩ := Prod.mk.inj (Option.some.inj (Except.ok.inj (hit.symm.trans search)))
        exact (write_spec clean.1 holds locOk head _).2.2 clean.2
  | learned located parsed search _ _ update =>
      have short := updateMapnode_short clean.1 update
      have storable := (recordPrefix_eq_ok.mp parsed).2.storable short
      obtain ⟨missed, _⟩ | ⟨_, _, _, hit, _⟩ := searchMapnode_spec clean.1 short
      · have eid := (safe.learned clean.1 parsed located missed).1
        have after := (updateMapnode_noOrphans clean.1 storable clean.2 update).mpr
          (Or.inl (eid.copies parsed))
        split
        · rwa [addRouteToTun_rib]
        · exact after
      · cases hit.symm.trans search

/-- A safe record that is processed keeps the cache. -/
theorem RecordSafe.keeps {pkt : List Byte} {record next : Nat} {lisp lisp' : Lisp} {more : Bool}
    (safe : RecordSafe pkt record lisp) (inv : Guardable lisp)
    (done : mapReplyRecord pkt record lisp = .ok (lisp', next, more))
    : Guardable lisp' := by
  have effect := (mapReplyRecord_effect done).2
  obtain ⟨ok', w, enabled, view, source⟩ := effect.writes inv.1.1
  refine ⟨⟨ok', safe.noOrphans inv.1 effect⟩, view ▸ inv.2.write ?_ enabled⟩
  cases w with
  | idle => trivial
  | stray pfx => trivial
  | refresh e => trivial
  | learn pfx e =>
      obtain ⟨located, parsed, _, locator, _, selected, node⟩ := source
      obtain ⟨eid, known⟩ := safe.learned inv.1.1 parsed located enabled.2.1
      rw [Writer.Sound, node]
      exact ⟨eid.prefix_valid parsed, lispLocatorPktToLocator_family selected known⟩
  | deny pfx e =>
      obtain ⟨empty, parsed, act⟩ := source
      intro absent
      rcases (safe.denied parsed empty act).2 with eid | ⟨e', mem, key⟩
      · exact eid.prefix_valid parsed
      · cases absent.symm.trans (inv.1.1.store_eq_some_iff.mpr ⟨mem, key⟩)
  | query pfx e => exact source.elim
  | pin pfx e => exact source.elim
  | unpin pfx e => exact source.elim
  | age e => exact source.elim

/-- A safe record whose bytes are there is processed. -/
theorem RecordSafe.processes {pkt : List Byte} {record : Nat} {lisp : Lisp}
    (safe : RecordSafe pkt record lisp) (inv : Guardable lisp) (inside : RecordInside pkt record)
    : ∃ lisp' next more, mapReplyRecord pkt record lisp = .ok (lisp', next, more)
        ∧ Guardable lisp' := by
  obtain ⟨pfx, parsed⟩ := inside.parses
  have known (empty : recordLocatorCount pkt record = 0) : recordAct pkt record ≤ 3 := by
    have cases := safe pfx parsed
    rw [if_pos empty] at cases
    omega
  have short (stores : recordLocatorCount pkt record ≠ 0
      ∨ recordAct pkt record = 1 ∨ recordAct pkt record = 3)
      : pfx.bitlen ≤ 128 := by
    by_cases empty : recordLocatorCount pkt record = 0
    · exact (safe.denied parsed empty (stores.resolve_left (not_not.mpr empty))).1
    · have cases := safe pfx parsed
      rw [if_neg empty] at cases
      exact cases.1
  obtain ⟨lisp', next, more, done⟩ :=
    mapReplyRecord_total inv.1.1 inv.1.2 inside parsed known short
  exact ⟨lisp', next, more, done, safe.keeps inv done⟩

-----------------------------------------------------------------------------------------
-- Runs of safe replies
-----------------------------------------------------------------------------------------

/-- A Map-Reply that reached the parser whole. -/
structure WholeReply (pkt : List Byte) : Prop where
  dispatched : dispatch pkt = .ok .mapReply
  header : sizeofLispMapReply ≤ pkt.length
  records : EachRecord pkt (RecordInside pkt) (byteAt pkt 3).toNat sizeofLispMapReply

/-- Every record that the parser reaches is safe. -/
def ReplySafe (lisp : Lisp) (pkt : List Byte) : Prop :=
  RecordsGuarded (RecordSafe pkt) pkt (byteAt pkt 3).toNat sizeofLispMapReply lisp

/-- If the event is a Map-Reply that is processed, it is safe. -/
def EventSafe (lisp : Lisp) : Event → Prop
  | .message len buf =>
      sizeofIp + sizeofLispControl ≤ len → dispatch buf = .ok .mapReply → ReplySafe lisp buf
  | _ => True

/-- An event whose Map-Replies are safe keeps the cache. -/
theorem Guardable.step {lisp lisp' : Lisp} {ev : Event} (inv : Guardable lisp)
    (safe : EventSafe lisp ev) (done : Lixy.step lisp ev = .ok lisp')
    : Guardable lisp' := by
  cases ev with
  | message len buf =>
      simp only [Lixy.step, lispMapMessageThread] at done
      split at done
      · obtain rfl := Except.ok.inj done
        exact inv
      · next long =>
          rcases processLispMapMessage_cases done with ⟨reply, next, records⟩ | ⟨_, rib, view⟩
          · have guarded : ReplySafe lisp buf := safe (by omega) reply
            exact guarded.invariant (fun _ _ _ _ _ inv safe done => safe.keeps inv done) inv
              (processLispMapReply_records records)
          · exact ⟨⟨rib ▸ inv.1.1, rib ▸ inv.1.2⟩, view ▸ inv.2⟩
  | packet frame =>
      obtain ⟨orphans, ok', w, enabled, view, source⟩ := lispRawPacketThread_writes inv.1.1 done
      refine ⟨⟨ok', orphans inv.1.2⟩, view ▸ inv.2.write ?_ enabled⟩
      rcases source with rfl | ⟨pfx, e, destination, rfl⟩
      · trivial
      · exact RawPacket.dstprefix_valid destination
  | installRoute dst addr =>
      obtain ⟨orphans, ok', w, enabled, view, source⟩ := cmdInstallRoute_writes inv.1.1 done
      refine ⟨⟨ok', orphans inv.1.2⟩, view ▸ inv.2.write ?_ enabled⟩
      rcases source with rfl | ⟨pfx, e, destination, rfl, _⟩
      · trivial
      · exact Destination.dstPrefix_valid destination
  | uninstallRoute dst =>
      obtain ⟨orphans, ok', w, enabled, view, source⟩ := cmdUninstallRoute_writes inv.1.1 done
      refine ⟨⟨ok', orphans inv.1.2⟩, view ▸ inv.2.write ?_ enabled⟩
      rcases source with rfl | ⟨pfx, e, destination, rfl⟩ <;> trivial
  | sweep =>
      obtain ⟨w, pass, done⟩ := bind_eq_ok.mp done
      obtain rfl := pure_eq_ok.mp done
      obtain ⟨ok', orphans, ages⟩ := sweep_writes inv.1.1 pass
      have kinds : ∀ w' ∈ (visited lisp.head).map Writer.age, ∃ e, w' = .age e := by
        intro w' hw
        obtain ⟨e, _, rfl⟩ := List.mem_map.mp hw
        exact ⟨e, rfl⟩
      refine ⟨⟨ok', orphans inv.1.2⟩, ages.invariant kinds ?_ inv.2⟩
      rintro v _ sound ⟨e, rfl⟩ enabled
      exact sound.write trivial enabled

/-- A whole Map-Reply of safe records is processed and keeps the cache. -/
theorem ReplySafe.processes {pkt : List Byte} {lisp : Lisp} (safe : ReplySafe lisp pkt)
    (whole : WholeReply pkt) (inv : Guardable lisp)
    : ∃ lisp', processLispMapMessage pkt lisp = .ok lisp' ∧ Guardable lisp' := by
  obtain ⟨lisp', next, done, kept⟩ := (safe.and (whole.records.guarded lisp)).progress
    (fun _ _ inv both => both.1.processes inv both.2) inv
  have count : rd pkt 3 = .ok (byteAt pkt 3) :=
    rd_eq_ok.mpr ⟨Nat.lt_of_lt_of_le (by decide) whole.header, rfl⟩
  refine ⟨lisp', ?_, kept⟩
  simp [processLispMapMessage, whole.dispatched, processLispMapReply, count, done, bind,
    Except.bind, pure, Except.pure]

/-- In a state that was reached without unsafe Map-Replies, every sequence of whole Map-Replies
of safe records is processed to its end, fails no assertion, formats no string, and leaves the
cache intact.
Witness: clean tables with sound entries are kept by every safe record and every other event.
-/
theorem safe_replies_keep_cache {before : List Event} {lisp : Lisp} {replies : List (List Byte)}
    (reached : run step Lisp.start before = .ok lisp)
    (safeBefore : Guarded step EventSafe Lisp.start before)
    (whole : ∀ pkt ∈ replies, WholeReply pkt)
    (safe : Guarded (fun lisp pkt => processLispMapMessage pkt lisp) ReplySafe lisp replies)
    : ∃ final, run (fun lisp pkt => processLispMapMessage pkt lisp) lisp replies = .ok final
        ∧ Intact final := by
  have inv : Guardable lisp :=
    safeBefore.invariant (fun _ _ _ inv safe done => inv.step safe done) guardable_start reached
  have guarded := (EventRuns.guarded_of_forall whole lisp).and safe
  obtain ⟨final, done, kept⟩ :=
    guarded.progress (fun _ _ inv both => both.2.processes both.1 inv) inv
  exact ⟨final, done, kept.intact⟩

/-- A positive reply for 10.0.0.0/8 is safe in the empty table. -/
theorem tenReply_keeps_cache
    : ∃ final, run (fun lisp pkt => processLispMapMessage pkt lisp) Lisp.start [tenReply] = .ok final
        ∧ Intact final := by
  have whole : WholeReply tenReply := ⟨by decide, by decide, by decide⟩
  have parsed : recordPrefix tenReply sizeofLispMapReply = .ok tenPrefix := by decide
  have safe : RecordSafe tenReply sizeofLispMapReply Lisp.start := by
    intro pfx parsed'
    obtain rfl := Except.ok.inj (parsed.symm.trans parsed')
    rw [if_neg (by decide)]
    exact ⟨by decide, Or.inr (by decide)⟩
  exact @safe_replies_keep_cache [] Lisp.start [tenReply] rfl trivial
    (fun pkt h => List.mem_singleton.mp h ▸ whole)
    ⟨⟨safe, fun _ _ _ => trivial⟩, fun _ _ => trivial⟩

/-- A Map-Reply with one NATIVE record for an IPv6 prefix of length 200. -/
def longNative : List Byte :=
  [0x28, 0, 0, 1, 0, 0, 0, 0, 0, 0, 0, 0,
    0, 0, 0, 10, 0, 200, 0x20, 0, 0, 0, 0, 2,
    0x20, 0x01, 0x0d, 0xb8, 0, 0, 0, 0, 0, 0, 0, 0, 0, 0, 0, 0]

/-- That reply fails an assertion of the tree. -/
theorem longNative_aborts
    : ¬ ∀ lisp pkt, Reachable step Lisp.start lisp → WholeReply pkt
        → ∃ final, processLispMapMessage pkt lisp = .ok final ∧ Intact final := by
  intro intact
  have whole : WholeReply longNative := ⟨by decide, by decide, by decide⟩
  have aborts : processLispMapMessage longNative Lisp.start
      = .error (.assertFailed .bitlenFits) := rfl
  obtain ⟨final, done, _⟩ := intact Lisp.start longNative (Reachable.init _) whole
  rw [aborts] at done
  cases done

end Lixy
