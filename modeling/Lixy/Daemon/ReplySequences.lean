import Lixy.Daemon.ReplyPlacement
import Lixy.Messages.RecordRelocation

/-! A Map-Reply beside its records one by one, each in a Map-Reply of its own. The two do the
same until a record finds its prefix covered: that ends the one and not the other.
-/

namespace Lixy

open ByteStrings
open LongestPrefix (Store best lastAt)
open EventRuns (run Reachable)

-----------------------------------------------------------------------------------------
-- Single records
-----------------------------------------------------------------------------------------

/-- The Map-Reply that carries one record alone: the header with a count of 1, and the record. -/
def singleReply (pkt : List Byte) (record : Nat) : List Byte :=
  (pkt.take sizeofLispMapReply).set 3 1 ++ recordBytes pkt record

/-- The Map-Replies that carry `n` records from `record` on, one each. -/
def singleReplies (pkt : List Byte) : Nat → Nat → List (List Byte)
  | 0, _ => []
  | n + 1, record => singleReply pkt record :: singleReplies pkt n (recordEnd pkt record)

/-- A Map-Reply, for what it does. -/
def replyStep (lisp : Lisp) (reply : List Byte) : Except Fault Lisp := do
  let (lisp, _) ← processLispMapReply reply lisp
  return lisp

/-- The map table, the routes and the Map-Requests sent are the same. -/
structure SameOutcome (a b : Lisp) : Prop where
  store : a.rib.store = b.rib.store
  routes : a.routes = b.routes
  mapRequests : a.mapRequests = b.mapRequests

section

variable {pkt : List Byte} {record : Nat} {lisp lisp' : Lisp}

/-- Moved records leave the same. -/
theorem moved_leaves {distance : Nat} {x y : Except Fault (Lisp × Nat × Bool)}
    (h : Moved (moveNext distance) x y)
    : (∃ next more, x = .ok (lisp', next, more)) ↔ ∃ next more, y = .ok (lisp', next, more) := by
  constructor
  · rintro ⟨_, _, returns⟩
    obtain ⟨⟨_, next, more⟩, returns', same⟩ := (h _).mp returns
    obtain ⟨rfl, _⟩ := Prod.mk.inj same
    exact ⟨next, more, returns'⟩
  · rintro ⟨next, more, returns'⟩
    exact ⟨distance + next, more, (h _).mpr ⟨_, returns', rfl⟩⟩

/-- A Map-Reply with one record does what the record does. -/
theorem replyStep_one {reply : List Byte} (count : rd reply 3 = .ok 1)
    : replyStep lisp reply = .ok lisp'
      ↔ ∃ next more, mapReplyRecord reply sizeofLispMapReply lisp = .ok (lisp', next, more) := by
  have one : mapReplyRecords reply 1 sizeofLispMapReply lisp
      = processLispMapReply reply lisp := by
    rw [processLispMapReply, count]
    rfl
  simp only [replyStep, ← one, mapReplyRecords, bind_eq_ok]
  constructor
  · rintro ⟨_, ⟨⟨after, next, more⟩, first, rest⟩, done⟩
    obtain rfl := pure_eq_ok.mp done
    cases more with
    | true =>
        obtain rfl := Except.ok.inj rest
        exact ⟨_, _, first⟩
    | false =>
        obtain rfl := pure_eq_ok.mp rest
        exact ⟨_, _, first⟩
  · rintro ⟨next, more, first⟩
    refine ⟨(lisp', next), ⟨_, first, ?_⟩, rfl⟩
    cases more <;> rfl

/-- A valid record does the same in a Map-Reply of its own. -/
theorem replyStep_single (header : sizeofLispMapReply ≤ pkt.length)
    (valid : ValidRecord pkt record)
    : replyStep lisp (singleReply pkt record) = .ok lisp'
      ↔ ∃ next more, mapReplyRecord pkt record lisp = .ok (lisp', next, more) := by
  have length : ((pkt.take sizeofLispMapReply).set 3 1).length = sizeofLispMapReply := by
    rw [List.length_set, List.length_take_of_le header]
  have count : rd (singleReply pkt record) 3 = .ok 1 := by
    refine (confined_rd 3).eq_ok ?_ (recordBytes pkt record)
    refine rd_eq_ok.mpr ⟨by rw [length]; decide, ?_⟩
    have there : 3 < (pkt.take sizeofLispMapReply).length := by
      rw [List.length_take_of_le header]
      decide
    rw [byteAt, List.getD, List.getElem?_set_self there]
    rfl
  rw [replyStep_one count]
  have moved := @moved_mapReplyRecord ((pkt.take sizeofLispMapReply).set 3 1)
    (recordBytes pkt record) sizeofLispMapReply 0 lisp (by rw [length])
  exact (moved_leaves moved).trans
    (moved_leaves (moved_recordBytes lisp valid.inside valid.action)).symm

end

-----------------------------------------------------------------------------------------
-- Records in sequence
-----------------------------------------------------------------------------------------

/-- What `n` records from `record` on put, in order, when each is processed. -/
def sequencePuts (pkt : List Byte)
    : Nat → Nat → Store Bool (Prefix × Mapnode) → List (Prefix × Mapnode)
  | 0, _, _ => []
  | n + 1, record, store =>
      let put := (recordPut pkt record store).1.toList
      put ++ sequencePuts pkt n (recordEnd pkt record) (putAll store put)

/-- The record has a Map-Request sent. -/
def Asks (pkt : List Byte) (record : Nat) : Prop :=
  recordLocatorCount pkt record = 0 ∧ recordAct pkt record = 2

/-- The records find done what they ask for: none has a Map-Request sent, and the last entry
that they put for each prefix is the one there.
-/
structure Settled (pkt : List Byte) (n record : Nat) (store : Store Bool (Prefix × Mapnode))
    : Prop where
  quiet : EachRecord pkt (fun record => ¬ Asks pkt record) n record
  stored
    : ∀ key e, lastAt ((sequencePuts pkt n record store).map fun e => (e.1.key, e)) key = some e
        → store key = some e

/-- No record but the last finds its prefix covered when it comes up, or those behind the first
one that does are settled.
-/
def GoesThrough (pkt : List Byte) : Nat → Nat → Store Bool (Prefix × Mapnode) → Prop
  | 0, _, _ => True
  | n + 1, record, store =>
      let put := recordPut pkt record store
      if put.2 then
        GoesThrough pkt n (recordEnd pkt record) (putAll store put.1.toList)
      else
        Settled pkt n (recordEnd pkt record) (putAll store put.1.toList)

/-- What `n` records from `record` on, one after the other, make of the daemon. -/
structure Sequenced (pkt : List Byte) (n record : Nat) (lisp lisp' : Lisp) : Prop where
  store : lisp'.rib.store = putAll lisp.rib.store (sequencePuts pkt n record lisp.rib.store)
  requests
    : ∃ asked, lisp'.mapRequests = asked ++ lisp.mapRequests
        ∧ (asked = [] ↔ EachRecord pkt (fun record => ¬ Asks pkt record) n record)
  routes
    : lisp'.routes = lisp.routes
      ∨ ∃ key, lisp.rib.store key = none ∧ (lisp'.rib.store key).isSome

section

variable {pkt : List Byte} {record next n : Nat} {more : Bool} {lisp lisp' : Lisp}

/-- What is stored stays stored. -/
theorem putAll_isSome {store : Store Bool (Prefix × Mapnode)} (es : List (Prefix × Mapnode))
    {key : List Bool} (there : (store key).isSome)
    : (putAll store es key).isSome := by
  rw [putAll, LongestPrefix.insertAll_apply, Option.isSome_or, there, Bool.or_true]

/-- A record has one Map-Request sent, or none. -/
theorem RecordEffect.requests (h : RecordEffect pkt record lisp lisp' more)
    : ∃ asked, lisp'.mapRequests = asked ++ lisp.mapRequests
        ∧ (asked = [] ↔ ¬ Asks pkt record) := by
  cases h with
  | ignored _ act _ =>
      refine ⟨[], rfl, iff_of_true rfl fun asks => ?_⟩
      have := asks.2
      omega
  | denied _ act _ _ _ =>
      refine ⟨[], rfl, iff_of_true rfl fun asks => ?_⟩
      rcases act with act | act
      · cases act.symm.trans asks.2
      · cases act.symm.trans asks.2
  | @asked pfx empty act _ =>
      exact ⟨[pfx], rfl, iff_of_false nofun (not_not_intro ⟨empty, act⟩)⟩
  | refreshed located _ _ => exact ⟨[], rfl, iff_of_true rfl fun asks => located asks.1⟩
  | learned located _ _ _ _ _ =>
      refine ⟨[], ?_, iff_of_true rfl fun asks => located asks.1⟩
      split
      · unfold addRouteToTun
        split <;> rfl
      · rfl

/-- A valid record that adds a route stores an entry where none was. -/
theorem ValidRecord.routes (valid : ValidRecord pkt record) (ok : TableOk lisp.rib)
    (done : mapReplyRecord pkt record lisp = .ok (lisp', next, more))
    : lisp'.routes = lisp.routes
      ∨ ∃ key, lisp.rib.store key = none ∧ (lisp'.rib.store key).isSome := by
  obtain ⟨_, effect⟩ := mapReplyRecord_effect done
  cases effect with
  | ignored _ _ _ => exact .inl rfl
  | denied _ _ _ _ _ => exact .inl rfl
  | asked _ _ _ => exact .inl rfl
  | refreshed _ _ _ => exact .inl rfl
  | @learned pfx _ _ _ _ located parsed search _ _ _ =>
      have valid := valid.eid.prefix_valid parsed
      rcases mapReplyRecord_located ok located parsed valid done
        with ⟨missed, _, _, _, _, store⟩ | ⟨e, found, _⟩
      · have absent := LongestPrefix.best_eq_none_iff.mp missed _ List.prefix_rfl
        obtain ⟨⟨copy, here⟩, _⟩ := entryAt_learned valid absent store
        exact .inr ⟨pfx.key, absent, by rw [(entryAt_eq_some.mp here).1]; rfl⟩
      · rcases searchMapnode_spec ok valid.bitlen_le with ⟨missed, _⟩ | ⟨_, _, _, hit, _⟩
        · cases missed.symm.trans found
        · cases hit.symm.trans search

/-- Valid records in Map-Replies of their own, one after the other; by induction on them. -/
theorem singleReplies_run (header : sizeofLispMapReply ≤ pkt.length) (ok : TableOk lisp.rib)
    (valid : EachRecord pkt (ValidRecord pkt) n record)
    (ran : run replyStep lisp (singleReplies pkt n record) = .ok lisp')
    : Sequenced pkt n record lisp lisp' := by
  induction n generalizing record lisp with
  | zero =>
      obtain rfl := Except.ok.inj ran
      exact ⟨rfl, ⟨[], rfl, iff_of_true rfl trivial⟩, .inl rfl⟩
  | succ n ih =>
      obtain ⟨middle, first, rest⟩ := EventRuns.run_cons_eq_ok.mp ran
      obtain ⟨next, more, done⟩ := (replyStep_single header valid.1).mp first
      obtain ⟨_, effect⟩ := mapReplyRecord_effect done
      have store := mapReplyRecord_store ok done
      have later := ih (effect.writes ok).1 valid.2 rest
      refine ⟨?_, ?_, ?_⟩
      · rw [later.store, sequencePuts]
        simp only [putAll_append, ← store]
      · obtain ⟨asked, requests, quiet⟩ := effect.requests
        obtain ⟨asked', requests', quiet'⟩ := later.requests
        refine ⟨asked' ++ asked, by rw [requests', requests, List.append_assoc], ?_⟩
        rw [List.append_eq_nil_iff, EachRecord, quiet, quiet']
        exact and_comm
      · rcases later.routes with same | ⟨key, absent, there⟩
        · rcases valid.1.routes ok done with same' | ⟨key, absent, there⟩
          · exact .inl (same.trans same')
          · exact .inr ⟨key, absent, by rw [later.store]; exact putAll_isSome _ there⟩
        · refine .inr ⟨key, ?_, there⟩
          -- an entry there would still be stored
          rw [store] at absent
          by_contra stored
          have still := putAll_isSome (recordPut pkt record lisp.rib.store).1.toList
            (Option.isSome_iff_ne_none.mpr stored)
          rw [absent] at still
          cases still

/-- They succeed on a clean table. -/
theorem singleReplies_total (header : sizeofLispMapReply ≤ pkt.length) (clean : Clean lisp)
    (valid : EachRecord pkt (ValidRecord pkt) n record)
    : ∃ lisp', run replyStep lisp (singleReplies pkt n record) = .ok lisp' := by
  induction n generalizing record lisp with
  | zero => exact ⟨lisp, rfl⟩
  | succ n ih =>
      obtain ⟨middle, next, more, done, clean'⟩ := valid.1.processes clean
      obtain ⟨lisp', rest⟩ := ih clean' valid.2
      have alone := (replyStep_single header valid.1).mpr ⟨next, more, done⟩
      exact ⟨lisp', EventRuns.run_cons_eq_ok.mpr ⟨middle, alone, rest⟩⟩

/-- They leave the daemon as it was exactly when they are settled. -/
theorem Sequenced.same_iff (h : Sequenced pkt n record lisp lisp')
    : SameOutcome lisp lisp' ↔ Settled pkt n record lisp.rib.store := by
  obtain ⟨asked, requests, quiet⟩ := h.requests
  constructor
  · intro same
    refine ⟨quiet.mp ?_,
      LongestPrefix.insertAll_eq_self_iff.mp (h.store.symm.trans same.store.symm)⟩
    have grown : [] ++ lisp.mapRequests = asked ++ lisp.mapRequests :=
      same.mapRequests.trans requests
    exact (List.append_cancel_right grown).symm
  · intro settled
    have store : lisp'.rib.store = lisp.rib.store :=
      h.store.trans (LongestPrefix.insertAll_eq_self_iff.mpr settled.stored)
    refine ⟨store.symm, ?_, ?_⟩
    · rcases h.routes with same | ⟨key, absent, there⟩
      · exact same.symm
      · rw [store, absent] at there
        cases there
    · rw [requests, quiet.mpr settled.quiet, List.nil_append]

/-- A Map-Reply leaves what its records in sequence do exactly when it goes through them; by
induction on the records.
-/
theorem mapReplyRecords_same_iff {whole inSequence : Lisp}
    (header : sizeofLispMapReply ≤ pkt.length) (ok : TableOk lisp.rib)
    (valid : EachRecord pkt (ValidRecord pkt) n record)
    (done : mapReplyRecords pkt n record lisp = .ok (whole, next))
    (ran : run replyStep lisp (singleReplies pkt n record) = .ok inSequence)
    : SameOutcome whole inSequence ↔ GoesThrough pkt n record lisp.rib.store := by
  induction n generalizing record lisp with
  | zero =>
      obtain ⟨rfl, _⟩ := Prod.mk.inj (Except.ok.inj done)
      obtain rfl := Except.ok.inj ran
      exact iff_of_true ⟨rfl, rfl, rfl⟩ trivial
  | succ n ih =>
      obtain ⟨⟨middle, off, more⟩, first, rest⟩ := bind_eq_ok.mp done
      obtain ⟨middle', alone, behind⟩ := EventRuns.run_cons_eq_ok.mp ran
      obtain ⟨off', more', again⟩ := (replyStep_single header valid.1).mp alone
      obtain ⟨rfl, _, _⟩ := Prod.mk.inj (Except.ok.inj (first.symm.trans again))
      obtain ⟨rfl, effect⟩ := mapReplyRecord_effect first
      have ok' := (effect.writes ok).1
      have store := mapReplyRecord_store ok first
      have goesOn := (effect.outline ok).2
      rw [GoesThrough]
      simp only [goesOn, ← store]
      cases more with
      | true => exact ih ok' valid.2 rest behind
      | false =>
          obtain ⟨rfl, _⟩ := Prod.mk.inj (pure_eq_ok.mp rest)
          exact (singleReplies_run header ok' valid.2 behind).same_iff

end

/-- The Map-Replies that carry the records of a Map-Reply one by one. -/
def recordReplies (pkt : List Byte) : List (List Byte) :=
  singleReplies pkt (byteAt pkt 3).toNat sizeofLispMapReply

/-- A valid Map-Reply on a reachable table changes the table and the routes and has Map-Requests
sent as its records one by one exactly when no record but the last finds its prefix covered, or
those behind the first that does are settled. Both ways are processed to the end where all
messages before were valid.
-/
theorem reply_sameOutcome_iff {lisp : Lisp} {pkt : List Byte}
    (reachable : Reachable step Lisp.start lisp) (valid : ValidReply pkt)
    : (∀ whole inSequence, replyStep lisp pkt = .ok whole
        → run replyStep lisp (recordReplies pkt) = .ok inSequence
        → (SameOutcome whole inSequence
          ↔ GoesThrough pkt (byteAt pkt 3).toNat sizeofLispMapReply lisp.rib.store))
      ∧ ∀ before, (∀ ev ∈ before, ValidEvent ev) → run step Lisp.start before = .ok lisp
        → ∃ whole inSequence, replyStep lisp pkt = .ok whole
            ∧ run replyStep lisp (recordReplies pkt) = .ok inSequence := by
  constructor
  · intro whole inSequence done ran
    obtain ⟨⟨after, next⟩, processed, done⟩ := bind_eq_ok.mp done
    obtain rfl := pure_eq_ok.mp done
    exact mapReplyRecords_same_iff valid.header (tableOk_of_reachable reachable) valid.records
      (processLispMapReply_records processed) ran
  · intro before events ran
    have clean := clean_of_valid events ran
    obtain ⟨whole, done, _⟩ := valid.processes clean
    obtain ⟨inSequence, ran'⟩ := singleReplies_total valid.header clean valid.records
    rcases processLispMapMessage_cases done with ⟨_, next, processed⟩ | ⟨other, _⟩
    · exact ⟨whole, inSequence, bind_eq_ok.mpr ⟨_, processed, rfl⟩, ran'⟩
    · exact absurd valid.dispatched other

/-- A Map-Reply with two records with one locator each, for 10.0.0.0/8 and 172.16.0.0/12. -/
def twoReply : List Byte :=
  [0x28, 0, 0, 2, 0, 0, 0, 0, 0, 0, 0, 0,
    0, 0, 0, 10, 1, 8, 0, 0, 0, 0, 0, 1, 10, 0, 0, 0,
    1, 100, 0, 0, 0, 5, 0, 1, 192, 0, 2, 1,
    0, 0, 0, 10, 1, 12, 0, 0, 0, 0, 0, 1, 172, 16, 0, 0,
    1, 100, 0, 0, 0, 5, 0, 1, 192, 0, 2, 1]

set_option maxRecDepth 8000 in
/-- On an empty table both of its records are learned. -/
theorem twoReply_sameOutcome
    : ∃ whole inSequence, replyStep Lisp.start twoReply = .ok whole
        ∧ run replyStep Lisp.start (recordReplies twoReply) = .ok inSequence
        ∧ SameOutcome whole inSequence := by
  obtain ⟨iff, total⟩ := reply_sameOutcome_iff (Reachable.init Lisp.start)
    (by decide : ValidReply twoReply)
  obtain ⟨whole, inSequence, done, ran⟩ := total [] nofun rfl
  exact ⟨whole, inSequence, done, ran, (iff whole inSequence done ran).mpr trivial⟩

set_option maxRecDepth 8000 in
/-- Where 10.0.0.0/8 is stored already, the record for 172.16.0.0/12 is dropped. -/
theorem twoReply_drops_record
    : ¬ ∀ (lisp whole inSequence : Lisp) (pkt : List Byte),
        Reachable step Lisp.start lisp → ValidReply pkt → replyStep lisp pkt = .ok whole
          → run replyStep lisp (recordReplies pkt) = .ok inSequence
          → SameOutcome whole inSequence := by
  intro same
  obtain ⟨lisp, whole, inSequence, ran, done, alone, fewer⟩
      : ∃ lisp whole inSequence, run step Lisp.start [.message 40 tenReply] = .ok lisp
        ∧ replyStep lisp twoReply = .ok whole
        ∧ run replyStep lisp (recordReplies twoReply) = .ok inSequence
        ∧ whole.routes.length ≠ inSequence.routes.length :=
    ⟨_, _, _, rfl, rfl, rfl, by decide⟩
  have outcome := same lisp whole inSequence twoReply ⟨_, ran⟩ (by decide) done alone
  exact fewer (congrArg List.length outcome.routes)

end Lixy
