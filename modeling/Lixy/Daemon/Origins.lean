import Lixy.Daemon.DataPath
import Lixy.Messages.RecordPuts

/-! Where the entries of the map table come from: each goes back to the event that gave its key
the state and the address, and so does the destination of every datagram of the data path.
-/

namespace Lixy

open ByteStrings
open LongestPrefix (Store best)
open EventRuns (run Reachable Guarded)

-----------------------------------------------------------------------------------------
-- Mappings and what gives them
-----------------------------------------------------------------------------------------

/-- What the map table tells about the leading bits of addresses: the state of the entry stored
there, and the locator's address in it.
-/
structure Mapping where
  key : List Bool
  state : MapState
  addr : SockaddrStorage

/-- The mapping that an entry stands for. -/
def mappingOf (e : Prefix × Mapnode) : Mapping :=
  { key := e.1.key, state := e.2.state, addr := e.2.addr }

/-- The entry of the mapping's key has its state and address. -/
def View.Maps (v : View) (m : Mapping) : Prop :=
  ∃ e, v.store m.key = some e ∧ e.2.state = m.state ∧ e.2.addr = m.addr

/-- The offset of a Map-Reply's record `k`. -/
def recordAt (pkt : List Byte) : Nat → Nat
  | 0 => sizeofLispMapReply
  | k + 1 => recordEnd pkt (recordAt pkt k)

/-- The record has the mapping: ACTIVE with the locator selected, or without locators what the
action says.
-/
def RecordGives (pkt : List Byte) (record : Nat) (m : Mapping) : Prop :=
  ∃ pfx, recordPrefix pkt record = .ok pfx ∧ pfx.key = m.key
    ∧ if recordLocatorCount pkt record = 0 then
        recordAct pkt record = 1 ∧ m.state = .negative
          ∨ recordAct pkt record = 3 ∧ m.state = .drop
      else
        m.state = .active
          ∧ ∃ locator, lispLocatorPktToLocator pkt (recordSelected pkt record) = .ok locator
              ∧ m.addr = locator.locAddr

/-- The event has the mapping: a Map-Reply in one of its records, an observed packet as a query
of its destination, and an install command as a static route.
-/
def Event.Gives (m : Mapping) : Event → Prop
  | .message _ buf =>
      dispatch buf = .ok .mapReply
        ∧ ∃ k < (byteAt buf 3).toNat, RecordGives buf (recordAt buf k) m
  | .packet frame => ∃ pfx, frame.dstprefix = some pfx ∧ pfx.key = m.key ∧ m.state = .queried
  | .installRoute dst addr =>
      ∃ pfx, dst.dstPrefix = some pfx ∧ pfx.key = m.key ∧ m.state = .static ∧ m.addr = addr
  | .uninstallRoute _ => False
  | .sweep => False

-----------------------------------------------------------------------------------------
-- What writers bring
-----------------------------------------------------------------------------------------

/-- The writer stores `e` for a prefix that it is told. -/
def Writer.Stores (pfx : Prefix) (e : Prefix × Mapnode) : Writer → Prop
  | .learn p e' | .deny p e' | .query p e' | .pin p e' => p = pfx ∧ e' = e
  | _ => False

section

variable {v : View} {m : Mapping}

theorem View.Maps.congr {v' : View} (h : v'.Maps m) (same : v'.store m.key = v.store m.key)
    : v.Maps m := by
  obtain ⟨e, stored, rest⟩ := h
  exact ⟨e, same.symm.trans stored, rest⟩

/-- After an entry is put, a mapping is the entry's or was there. -/
theorem View.Maps.of_put {e : Prefix × Mapnode} (h : (v.put e).Maps m)
    : v.Maps m ∨ m = mappingOf e := by
  by_cases own : m.key = e.1.key
  · obtain ⟨e', stored, state, addr⟩ := h
    rw [View.put_store, own, LongestPrefix.insert_self] at stored
    obtain rfl := Option.some.inj stored
    right
    cases m
    cases own
    cases state
    cases addr
    rfl
  · exact .inl (h.congr (LongestPrefix.insert_of_ne v.store e own))

/-- What an entry is replaced by under its own prefix had its mapping before. -/
theorem View.Maps.of_replace {e : Prefix × Mapnode} {node : Mapnode}
    (h : (v.put (e.1, node)).Maps m) (stored : v.store e.1.key = some e)
    (state : node.state = e.2.state) (addr : node.addr = e.2.addr)
    : v.Maps m := by
  rcases h.of_put with before | rfl
  · exact before
  · exact ⟨e, stored, state.symm, addr.symm⟩

/-- Forgetting an entry brings no mapping. -/
theorem View.Maps.of_remove {e : Prefix × Mapnode} (h : (v.remove e).Maps m) : v.Maps m := by
  by_cases own : m.key = e.1.key
  · obtain ⟨e', stored, _⟩ := h
    rw [View.remove_store, own, LongestPrefix.erase_self] at stored
    cases stored
  · exact h.congr (LongestPrefix.erase_of_ne v.store own)

/-- A writer brings the mapping of what it stores, and no other. -/
theorem View.Maps.of_write {w : Writer} (enabled : w.Enabled v) (h : (w.write v).Maps m)
    : v.Maps m ∨ ∃ pfx e, w.Stores pfx e ∧ pfx.key = m.key ∧ m = mappingOf e := by
  have put {pfx : Prefix} {e : Prefix × Mapnode} (puts : v.Puts pfx e) (h : (v.put e).Maps m)
      : v.Maps m ∨ (pfx.key = m.key ∧ m = mappingOf e) := by
    refine h.of_put.imp_right ?_
    rintro rfl
    exact ⟨puts.key.symm, rfl⟩
  cases w with
  | idle => exact .inl h
  | stray _ => exact .inl h
  | learn pfx e => exact (put enabled.1 h).imp_right fun gives => ⟨pfx, e, ⟨rfl, rfl⟩, gives⟩
  | deny pfx e => exact (put enabled.1 h).imp_right fun gives => ⟨pfx, e, ⟨rfl, rfl⟩, gives⟩
  | query pfx e => exact (put enabled.1 h).imp_right fun gives => ⟨pfx, e, ⟨rfl, rfl⟩, gives⟩
  | pin pfx e => exact (put enabled.1 h).imp_right fun gives => ⟨pfx, e, ⟨rfl, rfl⟩, gives⟩
  | refresh e =>
      have refreshed : (v.put (e.1, { e.2 with ttl := mapttlDefault })).Maps m := h
      exact .inl (refreshed.of_replace enabled rfl rfl)
  | unpin pfx e => exact .inl (View.Maps.of_remove (e := e) h)
  | age e =>
      left
      simp only [Writer.write] at h
      split at h
      · exact h
      · split at h
        · split at h
          · exact View.Maps.of_remove (e := e) h
          · exact h.of_remove
        · have aged : (v.put (e.1, e.2.aged)).Maps m := h
          exact aged.of_replace enabled rfl rfl

/-- A run of writers brings the mappings of what they store, and no other; by induction on the
writers.
-/
theorem View.Maps.of_writes {v' : View} {ws : List Writer} (run : Writes v ws v') (h : v'.Maps m)
    : v.Maps m ∨ ∃ w ∈ ws, (∃ u, w.Enabled u)
        ∧ ∃ pfx e, w.Stores pfx e ∧ pfx.key = m.key ∧ m = mappingOf e := by
  induction ws generalizing v with
  | nil =>
      obtain rfl : v' = v := run
      exact .inl h
  | cons w rest ih =>
      rcases ih run.2 with before | ⟨w', mem, brought⟩
      · refine (before.of_write run.1).imp_right fun brought => ?_
        exact ⟨w, List.mem_cons_self, ⟨v, run.1⟩, brought⟩
      · exact .inr ⟨w', List.mem_cons_of_mem _ mem, brought⟩

end

-----------------------------------------------------------------------------------------
-- What events bring
-----------------------------------------------------------------------------------------

section

variable {m : Mapping} {lisp lisp' : Lisp}

/-- What a record puts is a mapping that was there, or one that the record gives. -/
theorem recordPut_gives {pkt : List Byte} {record : Nat} {more : Bool} {e : Prefix × Mapnode}
    (ok : TableOk lisp.rib) (put : recordPut pkt record lisp.rib.store = (some e, more))
    : lisp.view.Maps (mappingOf e) ∨ RecordGives pkt record (mappingOf e) := by
  unfold recordPut at put
  split at put
  · cases put
  · next pfx parsed =>
      have own (old : Prefix × Mapnode) (there : lisp.rib.store pfx.key = some old)
          : old.1.key = pfx.key :=
        (ok.store_eq_some_iff.mp there).2
      have given {node : Mapnode} (put : putFor lisp.rib.store pfx node = some e) :=
        putFor_key own (recordPrefix_copyable parsed) put
      split at put
      · next empty =>
          obtain ⟨node, denied, put⟩ := Option.bind_eq_some_iff.mp (Prod.mk.inj put).1
          obtain ⟨key, rfl⟩ := given put
          refine .inr ⟨pfx, parsed, key.symm, ?_⟩
          rw [if_pos empty]
          unfold deniedMapnode at denied
          split at denied
          · next act =>
              exact .inl ⟨act, by rw [mappingOf, ← Option.some.inj denied]⟩
          · next act =>
              exact .inr ⟨act, by rw [mappingOf, ← Option.some.inj denied]⟩
          · cases denied
      · next located =>
          split at put
          · next key old found =>
              obtain rfl := Option.some.inj (Prod.mk.inj put).1
              have stored := (LongestPrefix.best_eq_some_iff.mp found).stored
              obtain ⟨_, rfl⟩ := ok.store_eq_some_iff.mp stored
              exact .inl ⟨old, stored, rfl, rfl⟩
          · split at put
            · next recordTtl locator _ selected =>
                obtain ⟨key, node⟩ := given (Prod.mk.inj put).1
                refine .inr ⟨pfx, parsed, key.symm, ?_⟩
                rw [if_neg located, mappingOf, node]
                exact ⟨rfl, locator, selected, rfl⟩
            · cases put

/-- A record brings the mapping that it gives. -/
theorem mapReplyRecord_maps {pkt : List Byte} {record next : Nat} {more : Bool}
    (ok : TableOk lisp.rib) (done : mapReplyRecord pkt record lisp = .ok (lisp', next, more))
    (h : lisp'.view.Maps m)
    : lisp.view.Maps m ∨ RecordGives pkt record m := by
  have store := mapReplyRecord_store ok done
  cases put : (recordPut pkt record lisp.rib.store).1 with
  | none =>
      rw [put] at store
      exact .inl (h.congr (congrFun store m.key))
  | some e =>
      rw [put] at store
      have stored : (lisp.view.put e).Maps m := h.congr (congrFun store m.key)
      rcases stored.of_put with before | rfl
      · exact .inl before
      · exact recordPut_gives ok (Prod.ext put rfl)

/-- The record loop brings what its records give, by induction on the records. -/
theorem mapReplyRecords_maps {pkt : List Byte} {n k next : Nat} (ok : TableOk lisp.rib)
    (done : mapReplyRecords pkt n (recordAt pkt k) lisp = .ok (lisp', next))
    (h : lisp'.view.Maps m)
    : lisp.view.Maps m ∨ ∃ j < k + n, RecordGives pkt (recordAt pkt j) m := by
  induction n generalizing k lisp with
  | zero =>
      obtain ⟨rfl, _⟩ := Prod.mk.inj (Except.ok.inj done)
      exact .inl h
  | succ n ih =>
      obtain ⟨⟨middle, off, more⟩, first, rest⟩ := bind_eq_ok.mp done
      obtain ⟨rfl, effect⟩ := mapReplyRecord_effect first
      have here (before : middle.view.Maps m)
          : lisp.view.Maps m ∨ ∃ j < k + (n + 1), RecordGives pkt (recordAt pkt j) m :=
        (mapReplyRecord_maps ok first before).imp_right fun gives => ⟨k, by omega, gives⟩
      cases more with
      | true =>
          rcases @ih middle (k + 1) (effect.writes ok).1 rest with before | ⟨j, lt, gives⟩
          · exact here before
          · exact .inr ⟨j, by omega, gives⟩
      | false =>
          obtain ⟨rfl, _⟩ := Prod.mk.inj (pure_eq_ok.mp rest)
          exact here h

/-- An event brings what it gives. -/
theorem step_maps {ev : Event} (ok : TableOk lisp.rib) (done : step lisp ev = .ok lisp')
    (h : lisp'.view.Maps m)
    : lisp.view.Maps m ∨ ev.Gives m := by
  obtain ⟨_, ws, run, sources⟩ := step_writes ok done
  cases ev with
  | message len buf =>
      simp only [step, lispMapMessageThread] at done
      split at done
      · obtain rfl := Except.ok.inj done
        exact .inl h
      · rcases processLispMapMessage_cases done with ⟨reply, next, records⟩ | ⟨_, _, view⟩
        · rcases @mapReplyRecords_maps m lisp lisp' buf _ 0 next ok
            (processLispMapReply_records records) h with before | ⟨j, lt, gives⟩
          · exact .inl before
          · exact .inr ⟨reply, j, by omega, gives⟩
        · exact .inl (view ▸ h)
  | packet frame =>
      refine (h.of_writes run).imp_right ?_
      rintro ⟨w, mem, ⟨_, enabled⟩, pfx, e, stores, key, rfl⟩
      rcases sources w mem with rfl | ⟨_, _, destination, rfl⟩
      · exact stores.elim
      · obtain ⟨rfl, rfl⟩ := stores
        exact ⟨_, destination, key, enabled.2.2⟩
  | installRoute dst addr =>
      refine (h.of_writes run).imp_right ?_
      rintro ⟨w, mem, ⟨_, enabled⟩, pfx, e, stores, key, rfl⟩
      rcases sources w mem with rfl | ⟨_, _, destination, rfl, same⟩
      · exact stores.elim
      · obtain ⟨rfl, rfl⟩ := stores
        exact ⟨_, destination, key, enabled.2, same⟩
  | uninstallRoute dst =>
      refine (h.of_writes run).imp_right ?_
      rintro ⟨w, mem, _, pfx, e, stores, _⟩
      rcases sources w mem with rfl | ⟨_, _, _, rfl⟩
      · exact stores
      · exact stores
  | sweep =>
      refine (h.of_writes run).imp_right ?_
      rintro ⟨w, mem, _, pfx, e, stores, _⟩
      obtain ⟨_, rfl⟩ := sources w mem
      exact stores

end

-----------------------------------------------------------------------------------------
-- The table
-----------------------------------------------------------------------------------------

/-- One of the events gives the mapping, and the table has had it ever since. -/
def Originates (events : List Event) (m : Mapping) : Prop :=
  ∃ before ev after middle next, events = before ++ ev :: after
    ∧ run step Lisp.start before = .ok middle ∧ step middle ev = .ok next ∧ ev.Gives m
    ∧ next.view.Maps m ∧ Guarded step (fun lisp _ => lisp.view.Maps m) next after

/-- A mapping of the table originates in the events that led to it. -/
theorem maps_originates {events : List Event} {lisp : Lisp} {m : Mapping}
    (done : run step Lisp.start events = .ok lisp) (h : lisp.view.Maps m)
    : Originates events m := by
  let Inv (lisp : Lisp) : Prop := TableOk lisp.rib
  let held (lisp : Lisp) : Prop := lisp.view.Maps m
  rcases @EventRuns.exists_origin _ _ _ step Inv held (fun _ ev => ev.Gives m)
      (fun _ _ _ ok done => (step_writes ok done).1) (fun _ _ _ ok done => step_maps ok done)
      Lisp.start lisp events tableOk_createMaptable done h
    with ⟨⟨e, stored, _⟩, _⟩ | origin
  · cases stored
  · exact origin

/-- Every entry of a reachable table goes back to an event that gave its key the state and the
address: no event brings an entry that it does not name, and nothing else changes one.
Witness: what one event brings, and the last time the entry was not there.
-/
theorem entry_originates {events : List Event} {lisp : Lisp} {e : Prefix × Mapnode}
    (done : run step Lisp.start events = .ok lisp) (mem : e ∈ lisp.rib.entries)
    : Originates events (mappingOf e) := by
  have stored := (tableOk_of_reachable ⟨events, done⟩).store_self mem
  exact maps_originates done ⟨e, stored, rfl, rfl⟩

/-- A static route for 10.0.0.0/8 goes back to its command, past a pass of the TTL thread. -/
theorem tenNet_originates
    : ∃ lisp e, run step Lisp.start [.installRoute tenNet .zero, .sweep] = .ok lisp
        ∧ e ∈ lisp.rib.entries ∧ Originates [.installRoute tenNet .zero, .sweep] (mappingOf e) := by
  refine ⟨_, _, rfl, List.mem_singleton.mpr rfl, ?_⟩
  exact entry_originates rfl (List.mem_singleton.mpr rfl)

-----------------------------------------------------------------------------------------
-- The data path
-----------------------------------------------------------------------------------------

/-- What the map table says about packets to a destination. -/
inductive Forwarding
  | encapsulate (addr : SockaddrStorage)
  | raw
  | discard

/-- The longest entry that covers the destination decides. -/
def forwarding (store : Store Bool (Prefix × Mapnode)) (destination : List Bool) : Forwarding :=
  match best store destination with
  | none => .raw
  | some (_, e) =>
      match e.2.state with
      | .active | .static => .encapsulate e.2.addr
      | .negative | .queried => .raw
      | .drop => .discard

section

variable {rib : Maptable} {thread next : DpTunThread} {p data : List Byte}
variable {name : SockaddrStorage} {namelen : Int} {d : Prefix}

/-- Destinations are no longer than an address. -/
theorem dpDstprefix_bitlen_le {buf : List Byte} {stale : Prefix}
    (destination : dpDstprefix buf stale = .ok (some d))
    : d.bitlen ≤ 128 := by
  obtain ⟨d', _, key, valid⟩ := dpDstprefix_stale [] stale .zero destination
  rw [← d.key_length, ← key, d'.key_length]
  exact valid.bitlen_le

/-- `lisp_dp_tun_thread` does with a packet what the table says about the destination in the
buffer.
-/
theorem lispDpTunThread_forwards (ok : TableOk rib)
    (destination : dpDstprefix (readInto thread.buf p).toList thread.dstprefix = .ok (some d))
    : lispDpTunThread (some p) rib thread
      = match forwarding rib.store d.key with
        | .raw => do
            let sent ← sendraw (readInto thread.buf p).toList
            return ({ buf := readInto thread.buf p, dstprefix := d }, sent)
        | .discard => .ok ({ buf := readInto thread.buf p, dstprefix := d }, none)
        | .encapsulate addr => do
            let data ← rdBytes (readInto thread.buf p).toList 0
              (min p.length lispEidDpBufLen + sizeofLispHdr)
            return ({ buf := readInto thread.buf p, dstprefix := d },
              some (.datagram addr (extractSalen addr) (lhdr.bytes ++ data.toList))) := by
  unfold lispDpTunThread
  simp only [destination, bind, Except.bind]
  rcases searchMapnode_spec ok (dpDstprefix_bitlen_le destination)
    with ⟨missed, search⟩ | ⟨e, z, found, search, _⟩
  · simp only [forwarding, missed, search]
  · simp only [forwarding, found, search]
    cases e.2.state <;> rfl

/-- What is sent to the device itself is no datagram. -/
theorem sendraw_ne_datagram {buf : List Byte}
    : sendraw buf ≠ .ok (some (.datagram name namelen data)) := by
  intro sent
  obtain ⟨_, _, sent⟩ := bind_eq_ok.mp sent
  split at sent
  · obtain ⟨_, _, sent⟩ := bind_eq_ok.mp sent
    obtain ⟨_, _, sent⟩ := bind_eq_ok.mp sent
    obtain ⟨_, _, sent⟩ := bind_eq_ok.mp sent
    cases pure_eq_ok.mp sent
  · obtain ⟨_, _, sent⟩ := bind_eq_ok.mp sent
    obtain ⟨_, _, sent⟩ := bind_eq_ok.mp sent
    obtain ⟨_, _, sent⟩ := bind_eq_ok.mp sent
    cases pure_eq_ok.mp sent
  · cases pure_eq_ok.mp sent

/-- A datagram is sent only where the longest entry that covers the destination has an address
for it.
-/
theorem datagram_longest (ok : TableOk rib)
    (sent : lispDpTunThread (some p) rib thread = .ok (next, some (.datagram name namelen data)))
    : ∃ d key e, dpDstprefix (readInto thread.buf p).toList thread.dstprefix = .ok (some d)
        ∧ LongestPrefix.Longest rib.store d.key key e
        ∧ (e.2.state = .active ∨ e.2.state = .static) ∧ e.2.addr = name := by
  obtain ⟨found, destination, _⟩ := bind_eq_ok.mp sent
  cases found with
  | none =>
      unfold lispDpTunThread at sent
      simp only [destination, bind, Except.bind] at sent
      cases (Prod.mk.inj (Except.ok.inj sent)).2
  | some d =>
      rw [lispDpTunThread_forwards ok destination] at sent
      refine ⟨d, ?_⟩
      cases hit : best rib.store d.key with
      | none =>
          simp only [forwarding, hit] at sent
          obtain ⟨_, raw, sent⟩ := bind_eq_ok.mp sent
          exact (sendraw_ne_datagram ((Prod.mk.inj (pure_eq_ok.mp sent)).2 ▸ raw)).elim
      | some found =>
          obtain ⟨key, e⟩ := found
          refine ⟨key, e, destination, LongestPrefix.best_eq_some_iff.mp hit, ?_⟩
          cases state : e.2.state <;> simp only [forwarding, hit, state] at sent
          case active =>
            obtain ⟨_, _, sent⟩ := bind_eq_ok.mp sent
            have same := Option.some.inj (Prod.mk.inj (pure_eq_ok.mp sent)).2
            exact ⟨.inl rfl, by injection same⟩
          case static =>
            obtain ⟨_, _, sent⟩ := bind_eq_ok.mp sent
            have same := Option.some.inj (Prod.mk.inj (pure_eq_ok.mp sent)).2
            exact ⟨.inr rfl, by injection same⟩
          case drop => cases (Prod.mk.inj (Except.ok.inj sent)).2
          all_goals
            obtain ⟨_, raw, sent⟩ := bind_eq_ok.mp sent
            exact (sendraw_ne_datagram ((Prod.mk.inj (pure_eq_ok.mp sent)).2 ▸ raw)).elim

end

/-- The destination in the buffer is the packet's own wherever the packet holds one. -/
theorem dpDstprefix_own {thread : DpTunThread} {p : List Byte} {d own : Prefix}
    (destination : dpDstprefix (readInto thread.buf p).toList thread.dstprefix = .ok (some d))
    (parsed : dpDstprefix (p.take lispEidDpBufLen) .zero = .ok (some own))
    : own.key = d.key := by
  obtain ⟨_, found, key, _⟩ := dpDstprefix_stale
    (thread.buf.toList.drop (p.take lispEidDpBufLen).length) .zero thread.dstprefix parsed
  rw [readInto_toList] at destination
  obtain rfl := Option.some.inj (Except.ok.inj (found.symm.trans destination))
  exact key.symm

/-- Every datagram that the data path sends goes to an address that an event gave for leading
bits of the packet's destination, in a Map-Reply or as a static route; no longer entry covers
the destination, and the entry has stood since that event.
-/
theorem datagram_originates {events : List Event} {lisp : Lisp} {thread next : DpTunThread}
    {p data : List Byte} {name : SockaddrStorage} {namelen : Int}
    (done : run step Lisp.start events = .ok lisp)
    (sent : lispDpTunThread (some p) lisp.rib thread
      = .ok (next, some (.datagram name namelen data)))
    : ∃ (d : Prefix) (m : Mapping),
        dpDstprefix (readInto thread.buf p).toList thread.dstprefix = .ok (some d)
        ∧ (∀ own, dpDstprefix (p.take lispEidDpBufLen) .zero = .ok (some own) → own.key = d.key)
        ∧ m.key <+: d.key ∧ m.addr = name ∧ (m.state = .active ∨ m.state = .static)
        ∧ (∀ key, m.key <+: key → key <+: d.key → (lisp.rib.store key).isSome → key = m.key)
        ∧ lisp.view.Maps m ∧ Originates events m := by
  have ok := tableOk_of_reachable ⟨events, done⟩
  obtain ⟨d, key, e, destination, ⟨covers, stored, longest⟩, state, addr⟩ :=
    datagram_longest ok sent
  obtain ⟨_, rfl⟩ := ok.store_eq_some_iff.mp stored
  have maps : lisp.view.Maps (mappingOf e) := ⟨e, stored, rfl, rfl⟩
  refine ⟨d, mappingOf e, destination, fun own => dpDstprefix_own destination, covers, addr, state,
    ?_, maps, maps_originates done maps⟩
  intro key longer covered there
  exact (longer.eq_of_length_le (longest key covered there)).symm

/-- The reply for 10.1.0.0/16, the command for 10.0.0.0/8 and a pass of the TTL thread. -/
def sixteenEvents : List Event :=
  [.message 40 sixteenReply, .installRoute tenNet .zero, .sweep]

/-- An IPv4 packet to 10.1.0.1. -/
def sixteenInner : List Byte :=
  [0x45, 0, 0, 20, 0, 0, 0, 0, 64, 17, 0, 0, 192, 168, 0, 1, 10, 1, 0, 1]

set_option maxRecDepth 4000 in
/-- After them the datagram for a packet to 10.1.0.1 goes back to the reply: its entry is
stored, and longer than the static one.
-/
theorem sixteenInner_originates
    : ∃ lisp next name namelen data m, run step Lisp.start sixteenEvents = .ok lisp
        ∧ lisp.rib.entries.map (fun e => (e.1.bitlen, e.2.state)) = [(8, .static), (16, .active)]
        ∧ lispDpTunThread (some sixteenInner) lisp.rib zeroThread
          = .ok (next, some (.datagram name namelen data))
        ∧ m.addr = name ∧ m.key.length = 16 ∧ lisp.view.Maps m ∧ Originates sixteenEvents m := by
  obtain ⟨lisp, own, done, entries, destination, resolved, ⟨e, mem, covers, length⟩, short⟩
      : ∃ lisp own, run step Lisp.start sixteenEvents = .ok lisp
        ∧ lisp.rib.entries.map (fun e => (e.1.bitlen, e.2.state)) = [(8, .static), (16, .active)]
        ∧ dpDstprefix (sixteenInner.take lispEidDpBufLen) .zero = .ok (some own)
        ∧ Resolved lisp.rib sixteenInner
        ∧ (∃ e ∈ lisp.rib.entries, e.1.key <+: own.key ∧ e.1.key.length = 16)
        ∧ ∀ e ∈ lisp.rib.entries, e.1.key.length ≤ 16 :=
    ⟨_, _, rfl, rfl, rfl, ⟨_, _, _, rfl, rfl, .inl rfl⟩, by decide, by decide⟩
  have ok := tableOk_of_reachable ⟨_, done⟩
  obtain ⟨next, name, namelen, sent⟩ :=
    @encapsulates_surplus _ zeroThread _ ok (by decide) resolved
  obtain ⟨d, m, _, same, below, addr, _, longest, maps, origin⟩ := datagram_originates done sent
  rw [← same own destination] at below longest
  have ⟨e', stored, _⟩ := maps
  obtain ⟨mem', key⟩ := ok.store_eq_some_iff.mp stored
  have between : m.key <+: e.1.key :=
    List.prefix_of_prefix_length_le below covers (key ▸ length ▸ short e' mem')
  have there : (lisp.rib.store e.1.key).isSome := by rw [ok.store_self mem]; rfl
  exact ⟨lisp, next, name, namelen, _, m, done, entries, sent, addr,
    (longest _ between covers there) ▸ length, maps, origin⟩

end Lixy
