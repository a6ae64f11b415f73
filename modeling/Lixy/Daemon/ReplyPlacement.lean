import Lixy.Daemon.ValidEvents
import Lixy.Messages.RecordPuts

/-! Where a positive Map-Reply record takes effect. The entry that covers its prefix best is
refreshed in its stead, whatever that entry's prefix and state.
-/

namespace Lixy

open ByteStrings
open LongestPrefix (best)
open EventRuns (run Reachable)

/-- The entry at the prefix was STATIC or is now ACTIVE with the locator selected from the
record, and the entries at other prefixes keep their states, addresses and TTLs.
-/
def TakesEffect (lisp lisp' : Lisp) (pkt : List Byte) (record : Nat) (pfx : Prefix) : Prop :=
  ((∃ e, entryAt lisp pfx.family pfx.key = some e ∧ e.2.state = .static)
      ∨ ∃ e, entryAt lisp' pfx.family pfx.key = some e ∧ e.2.state = .active
          ∧ lispLocatorPktToLocator pkt (recordSelected pkt record) = .ok e.2.locator
          ∧ e.2.addr = e.2.locator.locAddr)
    ∧ ∀ family key, (family, key) ≠ (pfx.family, pfx.key)
      → (entryAt lisp' family key).map (fun e => (e.2.state, e.2.addr, e.2.ttl))
        = (entryAt lisp family key).map (fun e => (e.2.state, e.2.addr, e.2.ttl))

/-- The record finds its way to its own prefix: nothing covers it, or the entry that is stored
at exactly the prefix is STATIC or has the locator already.
-/
def Unhindered (lisp : Lisp) (pkt : List Byte) (record : Nat) (pfx : Prefix) : Prop :=
  (∀ key, key <+: pfx.key → lisp.rib.store key = none)
    ∨ ∃ e, entryAt lisp pfx.family pfx.key = some e
        ∧ (e.2.state = .static
          ∨ e.2.state = .active
            ∧ lispLocatorPktToLocator pkt (recordSelected pkt record) = .ok e.2.locator
            ∧ e.2.addr = e.2.locator.locAddr)

section

variable {pkt : List Byte} {record : Nat} {lisp lisp' : Lisp} {pfx : Prefix}

/-- A positive record that is processed is learned where nothing covers its prefix; else the
entry that covers it best is refreshed.
-/
theorem mapReplyRecord_located {next : Nat} {more : Bool} (ok : TableOk lisp.rib)
    (located : recordLocatorCount pkt record ≠ 0) (parsed : recordPrefix pkt record = .ok pfx)
    (valid : pfx.Valid) (done : mapReplyRecord pkt record lisp = .ok (lisp', next, more))
    : (best lisp.rib.store pfx.key = none
        ∧ ∃ recordTtl locator, rd32 pkt record = .ok recordTtl
          ∧ lispLocatorPktToLocator pkt (recordSelected pkt record) = .ok locator
          ∧ lisp'.rib.store = putAll lisp.rib.store
              (putFor lisp.rib.store pfx (learnedMapnode recordTtl locator)).toList)
      ∨ ∃ e, best lisp.rib.store pfx.key = some (e.1.key, e)
          ∧ lisp'.rib.store = LongestPrefix.insert lisp.rib.store e.1.key
              (e.1, { e.2 with ttl := mapttlDefault }) := by
  obtain ⟨_, effect⟩ := mapReplyRecord_effect done
  have searched := searchMapnode_spec ok valid.bitlen_le
  cases effect with
  | ignored empty _ _ => exact absurd empty located
  | denied empty _ _ _ _ => exact absurd empty located
  | asked empty _ _ => exact absurd empty located
  | @refreshed pfx' pn mn _ parsed' search =>
      obtain rfl := Except.ok.inj (parsed.symm.trans parsed')
      rcases searched with ⟨_, missed⟩ | ⟨e, z, found, hit, holds, locOk, head⟩
      · cases missed.symm.trans search
      · obtain ⟨rfl, rfl⟩ := Prod.mk.inj (Option.some.inj (Except.ok.inj (hit.symm.trans search)))
        exact .inr ⟨e, found, (write_spec ok holds locOk head _).2.1⟩
  | @learned pfx' recordTtl locator rib stored _ parsed' search ttl selected update =>
      obtain rfl := Except.ok.inj (parsed.symm.trans parsed')
      rcases searched with ⟨missed, _⟩ | ⟨_, _, _, hit, _⟩
      · refine .inl ⟨missed, recordTtl, locator, ttl, selected, ?_⟩
        rw [learned_rib]
        exact updateMapnode_store ok valid.storable update
      · cases hit.symm.trans search

/-- A record that is learned leaves its mapnode at its prefix, and the other entries alone. -/
theorem entryAt_learned {node : Mapnode} (valid : pfx.Valid)
    (absent : lisp.rib.store pfx.key = none)
    (store : lisp'.rib.store = putAll lisp.rib.store (putFor lisp.rib.store pfx node).toList)
    : (∃ copy, entryAt lisp' pfx.family pfx.key = some (copy, node))
      ∧ ∀ family key, (family, key) ≠ (pfx.family, pfx.key)
        → entryAt lisp' family key = entryAt lisp family key := by
  obtain ⟨copy, copies⟩ := Option.isSome_iff_exists.mp (refPrefix_isSome valid.family)
  obtain ⟨family, _, key⟩ := refPrefix_eq_some copies valid.copyable
  have put : putFor lisp.rib.store pfx node = some (copy, node) := by
    rw [putFor, absent]
    simp only [copies, Option.map_some]
  rw [put] at store
  have inserted : lisp'.rib.store = LongestPrefix.insert lisp.rib.store pfx.key (copy, node) := by
    rw [store, ← key]
    rfl
  obtain ⟨here, others⟩ := entryAt_insert inserted family (by simp [absent])
  exact ⟨⟨copy, here⟩, others⟩

/-- A record that is learned takes effect. -/
theorem takesEffect_learned {locator : Locator} (recordTtl : BitVec 32)
    (valid : pfx.Valid) (absent : lisp.rib.store pfx.key = none)
    (selected : lispLocatorPktToLocator pkt (recordSelected pkt record) = .ok locator)
    (store : lisp'.rib.store
      = putAll lisp.rib.store
          (putFor lisp.rib.store pfx (learnedMapnode recordTtl locator)).toList)
    : TakesEffect lisp lisp' pkt record pfx := by
  obtain ⟨⟨copy, here⟩, others⟩ := entryAt_learned valid absent store
  exact ⟨.inr ⟨_, here, rfl, selected, rfl⟩, fun family key ne => by rw [others family key ne]⟩

/-- A record that refreshes an entry takes effect exactly where that is the right entry to
begin with.
-/
theorem takesEffect_refreshed_iff {e : Prefix × Mapnode}
    (found : best lisp.rib.store pfx.key = some (e.1.key, e))
    (store : lisp'.rib.store
      = LongestPrefix.insert lisp.rib.store e.1.key (e.1, { e.2 with ttl := mapttlDefault }))
    : TakesEffect lisp lisp' pkt record pfx ↔ Unhindered lisp pkt record pfx := by
  obtain ⟨covers, stored, _⟩ := LongestPrefix.best_eq_some_iff.mp found
  constructor
  · rintro ⟨⟨e', at_pfx, static⟩ | ⟨e', at_pfx, active, selected, address⟩, _⟩
    · exact .inr ⟨e', at_pfx, .inl static⟩
    · obtain ⟨there, family⟩ := entryAt_eq_some.mp at_pfx
      by_cases own : pfx.key = e.1.key
      · rw [store, own, LongestPrefix.insert_self] at there
        obtain rfl := Option.some.inj there
        exact .inr ⟨e, entryAt_eq_some.mpr ⟨own ▸ stored, family⟩, .inr ⟨active, selected, address⟩⟩
      · -- an entry at the prefix itself would have been the best match
        rw [store, LongestPrefix.insert_of_ne _ _ own] at there
        have self := LongestPrefix.best_self there
        exact absurd (Prod.mk.inj (Option.some.inj (self.symm.trans found))).1 own
  · rintro (nothing | ⟨e', at_pfx, state⟩)
    · cases stored.symm.trans (nothing _ covers)
    · obtain ⟨there, family⟩ := entryAt_eq_some.mp at_pfx
      have self := LongestPrefix.best_self there
      obtain ⟨own, rfl⟩ := Prod.mk.inj (Option.some.inj (self.symm.trans found))
      rw [← own] at store
      have old (e'' : Prefix × Mapnode) (again : lisp.rib.store pfx.key = some e'')
          : e''.1.family = pfx.family := by
        obtain rfl := Option.some.inj (there.symm.trans again)
        exact family
      obtain ⟨here, others⟩ := entryAt_insert store family old
      refine ⟨?_, fun family key ne => by rw [others family key ne]⟩
      rcases state with static | ⟨active, selected, address⟩
      · exact .inl ⟨e', at_pfx, static⟩
      · exact .inr ⟨_, here, active, selected, address⟩

/-- A positive record that is processed takes effect exactly where it is unhindered. -/
theorem mapReplyRecord_takesEffect_iff {next : Nat} {more : Bool} (ok : TableOk lisp.rib)
    (located : recordLocatorCount pkt record ≠ 0) (parsed : recordPrefix pkt record = .ok pfx)
    (valid : pfx.Valid) (done : mapReplyRecord pkt record lisp = .ok (lisp', next, more))
    : TakesEffect lisp lisp' pkt record pfx ↔ Unhindered lisp pkt record pfx := by
  rcases mapReplyRecord_located ok located parsed valid done
    with ⟨missed, recordTtl, locator, _, selected, store⟩ | ⟨e, found, store⟩
  · have nothing := LongestPrefix.best_eq_none_iff.mp missed
    exact iff_of_true
      (takesEffect_learned recordTtl valid (nothing _ List.prefix_rfl) selected store)
      (.inl nothing)
  · exact takesEffect_refreshed_iff found store

end

/-- A single record is all that the reply does. -/
theorem processLispMapReply_single {pkt : List Byte} {lisp lisp' : Lisp} {next : Nat}
    (single : byteAt pkt 3 = 1) (there : 3 < pkt.length)
    : processLispMapReply pkt lisp = .ok (lisp', next)
      ↔ ∃ more, mapReplyRecord pkt sizeofLispMapReply lisp = .ok (lisp', next, more) := by
  have count : rd pkt 3 = .ok (byteAt pkt 3) := rd_eq_ok.mpr ⟨there, rfl⟩
  constructor
  · intro done
    have records := processLispMapReply_records done
    rw [single] at records
    obtain ⟨⟨after, off, more⟩, first, rest⟩ := bind_eq_ok.mp records
    refine ⟨more, ?_⟩
    cases more with
    | true =>
        obtain ⟨rfl, rfl⟩ := Prod.mk.inj (Except.ok.inj rest)
        exact first
    | false =>
        obtain ⟨rfl, rfl⟩ := Prod.mk.inj (pure_eq_ok.mp rest)
        exact first
  · rintro ⟨more, first⟩
    refine bind_eq_ok.mpr ⟨_, count, ?_⟩
    rw [single]
    exact bind_eq_ok.mpr ⟨_, first, by cases more <;> rfl⟩

/-- On a reachable table a single-record Map-Reply with locators is processed to its end and
takes effect at its own prefix, and only there, exactly when the record returns, and nothing
covers the prefix, or the entry stored at it is STATIC or has the locator already. A valid one
is processed to its end where all messages before were valid.
-/
theorem positiveReply_takesEffect_iff {lisp : Lisp} {pkt : List Byte} {pfx : Prefix}
    (reachable : Reachable step Lisp.start lisp) (single : byteAt pkt 3 = 1)
    (located : 1 ≤ recordLocatorCount pkt sizeofLispMapReply)
    (parsed : recordPrefix pkt sizeofLispMapReply = .ok pfx) (valid : pfx.Valid)
    : ((∃ lisp' next, processLispMapReply pkt lisp = .ok (lisp', next)
          ∧ TakesEffect lisp lisp' pkt sizeofLispMapReply pfx)
        ↔ RecordReturns pkt sizeofLispMapReply lisp.rib.outline
          ∧ Unhindered lisp pkt sizeofLispMapReply pfx)
      ∧ ∀ before, (∀ ev ∈ before, ValidEvent ev) → run step Lisp.start before = .ok lisp
        → ValidReply pkt → ∃ lisp' next, processLispMapReply pkt lisp = .ok (lisp', next) := by
  have ok := tableOk_of_reachable reachable
  have there : 3 < pkt.length :=
    Nat.lt_of_lt_of_le (by decide) (recordPrefix_eq_ok.mp parsed).1
  have takes {lisp' : Lisp} {next : Nat} {more : Bool}
      (done : mapReplyRecord pkt sizeofLispMapReply lisp = .ok (lisp', next, more))
      : TakesEffect lisp lisp' pkt sizeofLispMapReply pfx
        ↔ Unhindered lisp pkt sizeofLispMapReply pfx :=
    mapReplyRecord_takesEffect_iff ok (Nat.ne_of_gt located) parsed valid done
  refine ⟨⟨?_, ?_⟩, ?_⟩
  · rintro ⟨lisp', next, done, effect⟩
    obtain ⟨more, first⟩ := (processLispMapReply_single single there).mp done
    exact ⟨recordReturns_of_done ok first, (takes first).mp effect⟩
  · rintro ⟨returns, unhindered⟩
    obtain ⟨lisp', next, more, first⟩ := returns.done ok
    exact ⟨lisp', next, (processLispMapReply_single single there).mpr ⟨more, first⟩,
      (takes first).mpr unhindered⟩
  · intro before events ran reply
    obtain ⟨lisp', done, _⟩ := reply.processes (clean_of_valid events ran)
    rcases processLispMapMessage_cases done with ⟨_, next, processed⟩ | ⟨other, _⟩
    · exact ⟨lisp', next, processed⟩
    · exact absurd reply.dispatched other

/-- Beside a STATIC entry for 10.128.0.0/9 and a learned one for 10.1.0.0/16, the reply for
10.0.0.0/8 takes effect.
-/
theorem tenReply_takesEffect
    : ∃ lisp, run step Lisp.start [.installRoute nineNet .zero, .message 40 sixteenReply]
          = .ok lisp
        ∧ lisp.rib.entries.map (fun e => (e.1.bitlen, e.2.state)) = [(16, .active), (9, .static)]
        ∧ ∃ lisp' next, processLispMapReply tenReply lisp = .ok (lisp', next)
          ∧ TakesEffect lisp lisp' tenReply sizeofLispMapReply tenPrefix := by
  have parsed : recordPrefix tenReply sizeofLispMapReply = .ok tenPrefix := by decide
  obtain ⟨lisp, ran, entries, beside, stray⟩
      : ∃ lisp, run step Lisp.start [.installRoute nineNet .zero, .message 40 sixteenReply]
            = .ok lisp
          ∧ lisp.rib.entries.map (fun e => (e.1.bitlen, e.2.state))
            = [(16, .active), (9, .static)]
          ∧ (∀ e ∈ lisp.rib.entries, ¬ e.1.key <+: tenPrefix.key)
          ∧ lisp.rib.outline.stray = none :=
    ⟨_, rfl, rfl, by decide, rfl⟩
  have reachable : Reachable step Lisp.start lisp := ⟨_, ran⟩
  have ok := tableOk_of_reachable reachable
  have uncovered (key : List Bool) (covers : key <+: tenPrefix.key)
      : lisp.rib.store key = none := by
    refine ok.wf.store_eq_none_iff.mpr ?_
    rintro e mem rfl
    exact beside e mem covers
  have returns : RecordReturns tenReply sizeofLispMapReply lisp.rib.outline := {
    address := by decide
    text := fun empty => absurd empty (by decide)
    locators := by decide
    selected := fun _ _ _ _ => by decide
    short := by
      rintro _ again _
      obtain rfl := Except.ok.inj (parsed.symm.trans again)
      decide
    admitted := fun _ _ _ => .inl stray }
  exact ⟨lisp, ran, entries, (positiveReply_takesEffect_iff reachable rfl (by decide) parsed
    (by decide)).1.mpr ⟨returns, .inl uncovered⟩⟩

set_option maxRecDepth 4000 in
/-- After it, the reply for 10.1.0.0/16 leaves no entry at its prefix. -/
theorem sixteenReply_takes_no_effect
    : ¬ ∀ (lisp lisp' : Lisp) (pkt : List Byte) (pfx : Prefix) (next : Nat),
        Reachable step Lisp.start lisp → byteAt pkt 3 = 1
          → 1 ≤ recordLocatorCount pkt sizeofLispMapReply
          → recordPrefix pkt sizeofLispMapReply = .ok pfx → pfx.Valid
          → processLispMapReply pkt lisp = .ok (lisp', next)
          → TakesEffect lisp lisp' pkt sizeofLispMapReply pfx := by
  intro takes
  obtain ⟨lisp, lisp', pfx, ran, parsed, valid, done, before, after⟩
      : ∃ lisp lisp' pfx, run step Lisp.start [.message 40 tenReply] = .ok lisp
        ∧ recordPrefix sixteenReply sizeofLispMapReply = .ok pfx ∧ pfx.Valid
        ∧ processLispMapReply sixteenReply lisp = .ok (lisp', 40)
        ∧ entryAt lisp pfx.family pfx.key = none ∧ entryAt lisp' pfx.family pfx.key = none :=
    ⟨_, _, _, rfl, rfl, by decide, rfl, by decide, by decide⟩
  rcases (takes lisp lisp' sixteenReply pfx 40 ⟨_, ran⟩ rfl (by decide) parsed valid done).1
    with ⟨e, there, _⟩ | ⟨e, there, _⟩
  · cases before.symm.trans there
  · cases after.symm.trans there

end Lixy
