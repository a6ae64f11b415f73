import Lixy.Messages.Records

/-! What each record of a Map-Reply does: one writer of the map table, or a map request.
The record loop runs them in order until one finds its prefix covered.
-/

namespace Lixy

open ByteStrings
open LongestPrefix (best)

-----------------------------------------------------------------------------------------
-- One record
-----------------------------------------------------------------------------------------

/-- The mapnode that a positive record installs. -/
def learnedMapnode (recordTtl : BitVec 32) (locator : Locator) : Mapnode :=
  { ttl := recordTtl * 60
    timer := 0
    state := .active
    addr := locator.locAddr
    locator }

/-- The mapnode that a negative record stores, by its action. -/
def deniedMapnode (act : Nat) : Option Mapnode :=
  match act with
  | 1 => some { Mapnode.zero with ttl := mapttlDefault, state := .negative }
  | 3 => some { Mapnode.zero with ttl := mapttlDefault, state := .drop }
  | _ => none

theorem deniedMapnode_eq_none {act : Nat} : deniedMapnode act = none ↔ act ≠ 1 ∧ act ≠ 3 := by
  unfold deniedMapnode
  split <;> simp_all

/-- It is NEGATIVE or DROP. -/
theorem deniedMapnode_state {act : Nat} {node : Mapnode} (denies : deniedMapnode act = some node)
    : node.state = .negative ∨ node.state = .drop := by
  unfold deniedMapnode at denies
  split at denies
  · obtain rfl := Option.some.inj denies
    exact Or.inl rfl
  · obtain rfl := Option.some.inj denies
    exact Or.inr rfl
  · cases denies

/-- The effect of the record at `record`, by its locator count, its action and what the
table holds; the flag tells whether the loop goes on.
-/
inductive RecordEffect (pkt : List Byte) (record : Nat) (lisp : Lisp) : Lisp → Bool → Prop
  | ignored {pfx : Prefix} (empty : recordLocatorCount pkt record = 0)
      (act : recordAct pkt record = 0 ∨ 4 ≤ recordAct pkt record)
      (parsed : recordPrefix pkt record = .ok pfx)
      : RecordEffect pkt record lisp lisp true
  | denied {pfx : Prefix} {node : Mapnode} {rib : Maptable} {stored : Bool}
      (empty : recordLocatorCount pkt record = 0)
      (act : recordAct pkt record = 1 ∨ recordAct pkt record = 3)
      (parsed : recordPrefix pkt record = .ok pfx)
      (denies : deniedMapnode (recordAct pkt record) = some node)
      (update : updateMapnode lisp.rib pfx node = .ok (rib, stored))
      : RecordEffect pkt record lisp { lisp with rib } true
  | asked {pfx : Prefix} (empty : recordLocatorCount pkt record = 0)
      (act : recordAct pkt record = 2) (parsed : recordPrefix pkt record = .ok pfx)
      : RecordEffect pkt record lisp (sendMapRequest pfx lisp) true
  | refreshed {pfx : Prefix} {pn : Loc Mapnode} {mn : Mapnode}
      (located : recordLocatorCount pkt record ≠ 0) (parsed : recordPrefix pkt record = .ok pfx)
      (search : searchMapnode lisp.rib pfx = .ok (some (pn, mn)))
      : RecordEffect pkt record lisp
          { lisp with rib := lisp.rib.write pn { mn with ttl := mapttlDefault } } false
  | learned {pfx : Prefix} {recordTtl : BitVec 32} {locator : Locator} {rib : Maptable}
      {stored : Bool}
      (located : recordLocatorCount pkt record ≠ 0) (parsed : recordPrefix pkt record = .ok pfx)
      (search : searchMapnode lisp.rib pfx = .ok none)
      (ttl : rd32 pkt record = .ok recordTtl)
      (selected : lispLocatorPktToLocator pkt (recordSelected pkt record) = .ok locator)
      (update : updateMapnode lisp.rib pfx (learnedMapnode recordTtl locator) = .ok (rib, stored))
      : RecordEffect pkt record lisp
          (if stored then addRouteToTun pfx { lisp with rib } else { lisp with rib }) true

/-- The table that a learned record leaves is the one updated. -/
theorem learned_rib (stored : Bool) (pfx : Prefix) (lisp : Lisp) (rib : Maptable)
    : (if stored then addRouteToTun pfx { lisp with rib } else { lisp with rib }).rib = rib := by
  split
  · rw [addRouteToTun_rib]
  · rfl

/-- The count is 0 as a byte exactly when it is as a number. -/
theorem locatorCount_eq_zero {pkt : List Byte} {record : Nat}
    : byteAt pkt (record + 4) = 0 ↔ recordLocatorCount pkt record = 0 := by
  rw [recordLocatorCount, BitVec.toNat_eq]
  rfl

/-- A negative record that is processed has one of these effects. -/
theorem recordLocIsZero_effect {pkt : List Byte} {record : Nat} {lisp lisp' : Lisp}
    (empty : recordLocatorCount pkt record = 0)
    (done : processLispMapReplyRecordLocIsZero pkt record lisp = .ok lisp')
    : RecordEffect pkt record lisp lisp' true := by
  simp only [processLispMapReplyRecordLocIsZero, bind_eq_ok, rd_eq_ok] at done
  obtain ⟨pfx, parsed, _, ⟨_, rfl⟩, done⟩ := done
  split at done
  · next act =>
      obtain rfl := pure_eq_ok.mp done
      exact .ignored empty (Or.inl act) parsed
  · next act =>
      obtain ⟨⟨rib, stored⟩, update, done⟩ := bind_eq_ok.mp done
      obtain rfl := pure_eq_ok.mp done
      exact .denied empty (Or.inl act) parsed (by rw [recordAct, act]; rfl) update
  · next act =>
      obtain rfl := pure_eq_ok.mp done
      exact .asked empty act parsed
  · next act =>
      obtain ⟨⟨rib, stored⟩, update, done⟩ := bind_eq_ok.mp done
      obtain rfl := pure_eq_ok.mp done
      exact .denied empty (Or.inr act) parsed (by rw [recordAct, act]; rfl) update
  · next zero one two three =>
      simp only [bind_eq_ok, pure_eq_ok] at done
      obtain ⟨_, _, _, _, _, _, rfl⟩ := done
      have unknown : ∀ act : Nat, act ≠ 0 → act ≠ 1 → act ≠ 2 → act ≠ 3 → 4 ≤ act := by omega
      exact .ignored empty (Or.inr (unknown _ zero one two three)) parsed

/-- A record that is processed ends behind its locators and has one of these effects. -/
theorem mapReplyRecord_effect {pkt : List Byte} {record next : Nat} {lisp lisp' : Lisp}
    {more : Bool} (done : mapReplyRecord pkt record lisp = .ok (lisp', next, more))
    : next = recordEnd pkt record ∧ RecordEffect pkt record lisp lisp' more := by
  simp only [mapReplyRecord, bind_eq_ok, rd_eq_ok, rd16_eq_ok] at done
  obtain ⟨_, ⟨_, rfl⟩, _, ⟨_, rfl⟩, done⟩ := done
  split at done
  · next zero =>
      have empty := locatorCount_eq_zero.mp zero
      obtain ⟨after, negative, done⟩ := bind_eq_ok.mp done
      obtain ⟨rfl, rfl, rfl⟩ := pure_eq_ok.mp done
      refine ⟨?_, recordLocIsZero_effect empty negative⟩
      simp [recordEnd, empty, locatorsEnd, recordLocators, recordAfi]
  · next zero =>
      have located := mt locatorCount_eq_zero.mpr zero
      obtain ⟨⟨selected, fin⟩, select, done⟩ := bind_eq_ok.mp done
      obtain ⟨_, _, rfl, rfl⟩ := selectLocator_eq_ok.mp select
      obtain ⟨pfx, parsed, done⟩ := bind_eq_ok.mp done
      obtain ⟨found, search, done⟩ := bind_eq_ok.mp done
      split at done
      · next pn mn =>
          obtain ⟨rfl, rfl, rfl⟩ := pure_eq_ok.mp done
          exact ⟨rfl, .refreshed located parsed search⟩
      · obtain ⟨recordTtl, ttl, done⟩ := bind_eq_ok.mp done
        obtain ⟨locator, chosen, done⟩ := bind_eq_ok.mp done
        obtain ⟨⟨rib, stored⟩, update, done⟩ := bind_eq_ok.mp done
        have effect := RecordEffect.learned located parsed search ttl chosen update
        split at done
        · next flag =>
            obtain ⟨rfl, rfl, rfl⟩ := pure_eq_ok.mp done
            rw [if_pos flag] at effect
            exact ⟨rfl, effect⟩
        · next flag =>
            obtain ⟨rfl, rfl, rfl⟩ := pure_eq_ok.mp done
            rw [if_neg flag] at effect
            exact ⟨rfl, effect⟩

/-- How a writer comes from the record at `record`. -/
def RecordWriter (pkt : List Byte) (record : Nat) (v : View) : Writer → Prop
  | .idle => recordLocatorCount pkt record = 0
  | .stray pfx => recordPrefix pkt record = .ok pfx
  | .learn pfx e =>
      recordLocatorCount pkt record ≠ 0 ∧ recordPrefix pkt record = .ok pfx
        ∧ ∃ recordTtl locator, rd32 pkt record = .ok recordTtl
            ∧ lispLocatorPktToLocator pkt (recordSelected pkt record) = .ok locator
            ∧ e.2 = learnedMapnode recordTtl locator
  | .refresh e =>
      recordLocatorCount pkt record ≠ 0
        ∧ ∃ pfx, recordPrefix pkt record = .ok pfx
            ∧ best v.store pfx.key = some (e.1.key, e)
  | .deny pfx _ =>
      recordLocatorCount pkt record = 0 ∧ recordPrefix pkt record = .ok pfx
        ∧ (recordAct pkt record = 1 ∨ recordAct pkt record = 3)
  | _ => False

/-- `update_mapnode` asserts that the prefix is not too long. -/
theorem updateMapnode_short {table : Maptable} {pfx : Prefix} {node : Mapnode}
    {after : Maptable} {stored : Bool} (ok : TableOk table)
    (done : updateMapnode table pfx node = .ok (after, stored))
    : pfx.bitlen ≤ 128 := by
  by_contra long
  obtain ⟨tree, pn, lookup, _⟩ := updateMapnode_cases done
  rw [patriciaLookup, if_neg (by rwa [ok.maxbits])] at lookup
  cases lookup

/-- `search_mapnode` asserts the same. -/
theorem searchMapnode_short {table : Maptable} {pfx : Prefix}
    {result : Option (Loc Mapnode × Mapnode)} (ok : TableOk table)
    (done : searchMapnode table pfx = .ok result)
    : pfx.bitlen ≤ 128 := by
  by_contra long
  rw [searchMapnode_too_long ok long] at done
  cases done

/-- Every effect is that of one writer, and keeps the table in order. -/
theorem RecordEffect.writes {pkt : List Byte} {record : Nat} {lisp lisp' : Lisp} {more : Bool}
    (h : RecordEffect pkt record lisp lisp' more) (ok : TableOk lisp.rib)
    : TableOk lisp'.rib
      ∧ ∃ w : Writer, w.Enabled lisp.view ∧ lisp'.view = w.write lisp.view
          ∧ RecordWriter pkt record lisp.view w := by
  cases h with
  | ignored empty _ _ => exact ⟨ok, .idle, trivial, rfl, empty⟩
  | asked empty _ _ => exact ⟨ok, .idle, trivial, rfl, empty⟩
  | @denied pfx node rib stored empty act parsed denies update =>
      have storable := (recordPrefix_eq_ok.mp parsed).2.storable (updateMapnode_short ok update)
      obtain ⟨ok', _, ⟨_, rfl, _⟩ | ⟨_, _, store⟩ | ⟨e, _, node, puts, store⟩⟩ :=
        updateMapnode_puts lisp.view.routes ok storable update
      · exact ⟨ok', .idle, trivial, rfl, empty⟩
      · refine ⟨ok', .idle, trivial, ?_, empty⟩
        simp only [Writer.write, Lisp.view, store]
      · refine ⟨ok', .deny pfx e, ⟨puts, node.symm ▸ deniedMapnode_state denies⟩, ?_, empty, parsed, act⟩
        simp only [Writer.write, View.put, Lisp.view, store]
  | @refreshed pfx pn mn located parsed search =>
      have short := searchMapnode_short ok search
      rcases searchMapnode_spec ok short with ⟨_, missed⟩ | ⟨e, z, found, hit, holds, locOk, head⟩
      · cases missed.symm.trans search
      · obtain ⟨rfl, rfl⟩ := Prod.mk.inj (Option.some.inj (Except.ok.inj (hit.symm.trans search)))
        obtain ⟨ok', store, _⟩ := write_spec ok holds locOk head { e.2 with ttl := mapttlDefault }
        have stored := (LongestPrefix.best_eq_some_iff.mp found).stored
        refine ⟨ok', .refresh e, stored, ?_, located, pfx, parsed, found⟩
        simp only [Writer.write, View.put, Lisp.view, store]
  | @learned pfx recordTtl locator rib stored located parsed search ttl selected update =>
      have short := updateMapnode_short ok update
      have storable := (recordPrefix_eq_ok.mp parsed).2.storable short
      obtain ⟨missed, _⟩ | ⟨_, _, _, hit, _⟩ := searchMapnode_spec ok short
      · rw [learned_rib]
        obtain ⟨ok', _,
            ⟨_, _, e, there, _⟩ | ⟨rfl, unknown, store⟩ | ⟨e, rfl, node, puts, store⟩⟩ :=
          updateMapnode_puts lisp.view.routes ok storable update
        · rw [LongestPrefix.best_eq_none_iff.mp missed _ List.prefix_rfl] at there
          cases there
        · refine ⟨ok', .stray pfx, unknown, ?_, parsed⟩
          rw [if_pos rfl, view_addRouteToTun]
          simp only [Writer.write, Lisp.view, store]
        · refine ⟨ok', .learn pfx e, ⟨puts, missed, by rw [node]; rfl⟩, ?_, located, parsed,
            recordTtl, locator, ttl, selected, node⟩
          rw [if_pos rfl, view_addRouteToTun]
          simp only [Writer.write, View.put, Lisp.view, store]
      · cases hit.symm.trans search

/-- A record of a known family leaves no orphan. -/
theorem RecordEffect.noOrphans {pkt : List Byte} {record : Nat} {lisp lisp' : Lisp} {more : Bool}
    (h : RecordEffect pkt record lisp lisp' more) (ok : TableOk lisp.rib)
    (clean : lisp.rib.NoOrphans)
    (known : ∀ pfx, recordPrefix pkt record = .ok pfx → (refPrefix pfx).isSome)
    : lisp'.rib.NoOrphans := by
  cases h with
  | ignored _ _ _ => exact clean
  | asked _ _ _ => exact clean
  | denied _ _ parsed _ update =>
      have storable := (recordPrefix_eq_ok.mp parsed).2.storable (updateMapnode_short ok update)
      exact (updateMapnode_puts lisp.view.routes ok storable update).2.1 clean (known _ parsed)
  | refreshed _ _ search =>
      have short := searchMapnode_short ok search
      rcases searchMapnode_spec ok short with ⟨_, missed⟩ | ⟨e, z, _, hit, holds, locOk, head⟩
      · cases missed.symm.trans search
      · obtain ⟨rfl, rfl⟩ := Prod.mk.inj (Option.some.inj (Except.ok.inj (hit.symm.trans search)))
        exact (write_spec ok holds locOk head _).2.2 clean
  | learned _ parsed _ _ _ update =>
      have storable := (recordPrefix_eq_ok.mp parsed).2.storable (updateMapnode_short ok update)
      have after := (updateMapnode_puts lisp.view.routes ok storable update).2.1 clean
        (known _ parsed)
      rw [learned_rib]
      exact after

-----------------------------------------------------------------------------------------
-- The record loop
-----------------------------------------------------------------------------------------

/-- Every record that the loop reaches meets `guard` at the state it is processed in. -/
def RecordsGuarded (guard : Nat → Lisp → Prop) (pkt : List Byte) : Nat → Nat → Lisp → Prop
  | 0, _, _ => True
  | n + 1, record, lisp =>
      guard record lisp
        ∧ ∀ lisp' next, mapReplyRecord pkt record lisp = .ok (lisp', next, true)
          → RecordsGuarded guard pkt n next lisp'

/-- What every guarded record keeps, the loop keeps; by induction on the records. -/
theorem RecordsGuarded.invariant {Inv : Lisp → Prop} {guard : Nat → Lisp → Prop}
    {pkt : List Byte} {n record next : Nat} {lisp lisp' : Lisp}
    (guarded : RecordsGuarded guard pkt n record lisp)
    (keeps : ∀ record lisp lisp' next more, Inv lisp → guard record lisp
      → mapReplyRecord pkt record lisp = .ok (lisp', next, more) → Inv lisp')
    (start : Inv lisp) (done : mapReplyRecords pkt n record lisp = .ok (lisp', next))
    : Inv lisp' := by
  induction n generalizing record lisp with
  | zero =>
      obtain ⟨rfl, _⟩ := Prod.mk.inj (Except.ok.inj done)
      exact start
  | succ n ih =>
      obtain ⟨⟨middle, off, more⟩, first, rest⟩ := bind_eq_ok.mp done
      have kept := keeps _ _ _ _ _ start guarded.1 first
      cases more with
      | true => exact ih (guarded.2 _ _ first) kept rest
      | false =>
          obtain ⟨rfl, _⟩ := Prod.mk.inj (pure_eq_ok.mp rest)
          exact kept

/-- A loop whose guarded records all succeed and keep an invariant succeeds. -/
theorem RecordsGuarded.progress {Inv : Lisp → Prop} {guard : Nat → Lisp → Prop}
    {pkt : List Byte} {n record : Nat} {lisp : Lisp}
    (guarded : RecordsGuarded guard pkt n record lisp)
    (steps : ∀ record lisp, Inv lisp → guard record lisp
      → ∃ lisp' next more, mapReplyRecord pkt record lisp = .ok (lisp', next, more) ∧ Inv lisp')
    (start : Inv lisp)
    : ∃ lisp' next, mapReplyRecords pkt n record lisp = .ok (lisp', next) ∧ Inv lisp' := by
  induction n generalizing record lisp with
  | zero => exact ⟨lisp, record, rfl, start⟩
  | succ n ih =>
      obtain ⟨middle, off, more, first, kept⟩ := steps _ _ start guarded.1
      rw [mapReplyRecords, first]
      cases more with
      | true => exact ih (guarded.2 _ _ first) kept
      | false => exact ⟨middle, off, rfl, kept⟩

/-- A guard that asks nothing is met. -/
theorem recordsGuarded_true (pkt : List Byte) (n record : Nat) (lisp : Lisp)
    : RecordsGuarded (fun _ _ => True) pkt n record lisp := by
  induction n generalizing record lisp with
  | zero => trivial
  | succ n ih => exact ⟨trivial, fun _ _ _ => ih _ _⟩

/-- Two guards met along the loop are met together. -/
theorem RecordsGuarded.and {guard more : Nat → Lisp → Prop} {pkt : List Byte} {n record : Nat}
    {lisp : Lisp} (left : RecordsGuarded guard pkt n record lisp)
    (right : RecordsGuarded more pkt n record lisp)
    : RecordsGuarded (fun record lisp => guard record lisp ∧ more record lisp) pkt n record
        lisp := by
  induction n generalizing record lisp with
  | zero => trivial
  | succ n ih =>
      exact ⟨⟨left.1, right.1⟩, fun _ _ done => ih (left.2 _ _ done) (right.2 _ _ done)⟩

/-- A reply keeps the table in order and runs writers of its records. -/
theorem mapReplyRecords_writes {pkt : List Byte} {n record next : Nat} {lisp lisp' : Lisp}
    (ok : TableOk lisp.rib) (done : mapReplyRecords pkt n record lisp = .ok (lisp', next))
    : TableOk lisp'.rib
      ∧ ∃ ws, Writes lisp.view ws lisp'.view
          ∧ ∀ w ∈ ws, ∃ record v, RecordWriter pkt record v w := by
  let Inv (after : Lisp) : Prop :=
    TableOk after.rib ∧ ∃ ws, Writes lisp.view ws after.view
      ∧ ∀ w ∈ ws, ∃ record v, RecordWriter pkt record v w
  have keeps (record : Nat) (before after : Lisp) (next : Nat) (more : Bool) (inv : Inv before)
      (done : mapReplyRecord pkt record before = .ok (after, next, more))
      : Inv after := by
    obtain ⟨ok, ws, run, sources⟩ := inv
    obtain ⟨ok', w, enabled, view, source⟩ := (mapReplyRecord_effect done).2.writes ok
    refine ⟨ok', ws ++ [w], run.append (view ▸ Writes.single enabled), ?_⟩
    intro w' hw'
    rcases List.mem_append.mp hw' with earlier | last
    · exact sources w' earlier
    · obtain rfl := List.mem_singleton.mp last
      exact ⟨record, before.view, source⟩
  have start : Inv lisp := ⟨ok, [], rfl, nofun⟩
  exact (recordsGuarded_true pkt n record lisp).invariant
    (fun _ _ _ _ _ inv _ done => keeps _ _ _ _ _ inv done) start done

-----------------------------------------------------------------------------------------
-- Records that are whole
-----------------------------------------------------------------------------------------

/-- Every one of `n` records meets `p`. -/
def EachRecord (pkt : List Byte) (p : Nat → Prop) : Nat → Nat → Prop
  | 0, _ => True
  | n + 1, record => p record ∧ EachRecord pkt p n (recordEnd pkt record)

instance decidableEachRecord (pkt : List Byte) (p : Nat → Prop) [DecidablePred p]
    : (n record : Nat) → Decidable (EachRecord pkt p n record)
  | 0, _ => isTrue trivial
  | n + 1, record =>
      have := decidableEachRecord pkt p n (recordEnd pkt record)
      inferInstanceAs (Decidable (p record ∧ EachRecord pkt p n (recordEnd pkt record)))

/-- What holds of every record in the datagram guards the loop. -/
theorem EachRecord.guarded {pkt : List Byte} {p : Nat → Prop} {n record : Nat}
    (h : EachRecord pkt p n record) (lisp : Lisp)
    : RecordsGuarded (fun record _ => p record) pkt n record lisp := by
  induction n generalizing record lisp with
  | zero => trivial
  | succ n ih =>
      refine ⟨h.1, fun lisp' next done => ?_⟩
      obtain ⟨rfl, _⟩ := mapReplyRecord_effect done
      exact ih h.2 lisp'

/-- All the bytes of the record are there. -/
abbrev RecordInside (pkt : List Byte) (record : Nat) : Prop := recordEnd pkt record ≤ pkt.length

section

variable {pkt : List Byte}

theorem lispLocatorPktLen_eq (afi : Nat)
    : lispLocatorPktLen afi = 12 ∧ afi = lispAfiIpv4
      ∨ lispLocatorPktLen afi = 24 ∧ afi ≠ lispAfiIpv4 := by
  unfold lispLocatorPktLen
  split
  · exact Or.inl ⟨rfl, ‹_›⟩
  · exact Or.inr ⟨rfl, ‹_›⟩

theorem lispRecordPktLen_eq (afi : Nat)
    : lispRecordPktLen afi = 16 ∧ afi = lispAfiIpv4
      ∨ lispRecordPktLen afi = 28 ∧ afi ≠ lispAfiIpv4 := by
  unfold lispRecordPktLen
  split
  · exact Or.inl ⟨rfl, ‹_›⟩
  · exact Or.inr ⟨rfl, ‹_›⟩

/-- An address fits in the room that the length macros leave for it. -/
theorem addrLen_le (afi : Nat)
    : sizeofLispLocator + addrLen afi ≤ lispLocatorPktLen afi
      ∧ sizeofLispRecord + addrLen afi ≤ lispRecordPktLen afi := by
  unfold addrLen lispLocatorPktLen lispRecordPktLen
  split
  · exact ⟨Nat.le_refl _, Nat.le_refl _⟩
  · constructor <;> split <;> omega

/-- Locators only move the offset on. -/
theorem le_locatorsEnd (n off : Nat) : off ≤ locatorsEnd pkt n off := by
  induction n generalizing off with
  | zero => exact Nat.le_refl _
  | succ n ih => exact Nat.le_trans (Nat.le_add_right _ _) (ih _)

/-- Locators that end inside are inside one by one. -/
theorem eachLocator_inside {n off : Nat} (h : locatorsEnd pkt n off ≤ pkt.length)
    : EachLocator pkt
        (fun lisploc => lisploc + lispLocatorPktLen (locatorAfi pkt lisploc) ≤ pkt.length) n
        off := by
  induction n generalizing off with
  | zero => trivial
  | succ n ih => exact ⟨Nat.le_trans (le_locatorsEnd n _) h, ih h⟩

theorem EachLocator.imp {p q : Nat → Prop} (imp : ∀ off, p off → q off) {n off : Nat}
    (h : EachLocator pkt p n off)
    : EachLocator pkt q n off := by
  induction n generalizing off with
  | zero => trivial
  | succ n ih => exact ⟨imp _ h.1, ih h.2⟩

theorem EachLocator.first {p : Nat → Prop} {n off : Nat} (h : EachLocator pkt p n off)
    (some : n ≠ 0)
    : p off := by
  cases n with
  | zero => exact absurd rfl some
  | succ n => exact h.1

/-- A record that has locators selects one of them. -/
theorem EachLocator.recordSelected {p : Nat → Prop} {record : Nat}
    (h : EachLocator pkt p (recordLocatorCount pkt record) (recordLocators pkt record))
    (located : recordLocatorCount pkt record ≠ 0)
    : p (recordSelected pkt record) :=
  h.selected (h.first located)

/-- A whole record's own part is inside. -/
theorem RecordInside.header {record : Nat} (h : RecordInside pkt record)
    : record + 12 + addrLen (recordAfi pkt record) ≤ pkt.length := by
  have below : recordLocators pkt record ≤ recordEnd pkt record := le_locatorsEnd _ _
  have room := (addrLen_le (recordAfi pkt record)).2
  simp only [RecordInside, recordEnd, recordLocators, sizeofLispRecord] at h below room
  omega

/-- A prefix whose address is there parses. -/
theorem addrToPrefix_total {off afi len : Nat} (fits : off + addrLen afi ≤ pkt.length)
    : ∃ pfx, addrToPrefix (lispafiToAf afi) pkt off len .zero = .ok pfx := by
  by_cases h₁ : afi = lispAfiIpv4
  · subst h₁
    obtain ⟨addr, bytes⟩ := Option.isSome_iff_exists.mp (slice_isSome_iff.mpr fits)
    exact ⟨_, addrToPrefix_eq_ok.mpr (.ipv4 rfl bytes)⟩
  · by_cases h₂ : afi = lispAfiIpv6
    · subst h₂
      obtain ⟨addr, bytes⟩ := Option.isSome_iff_exists.mp (slice_isSome_iff.mpr fits)
      exact ⟨_, addrToPrefix_eq_ok.mpr (.ipv6 rfl bytes)⟩
    · exact ⟨_, addrToPrefix_eq_ok.mpr (.unknown h₁ h₂)⟩

/-- The prefix of a record whose own part is inside parses. -/
theorem recordPrefix_total {record : Nat}
    (header : record + 12 + addrLen (recordAfi pkt record) ≤ pkt.length)
    : ∃ pfx, recordPrefix pkt record = .ok pfx := by
  obtain ⟨pfx, parsed⟩ := addrToPrefix_total header
  exact ⟨pfx, recordPrefix_eq_ok.mpr ⟨by omega, addrToPrefix_eq_ok.mp parsed⟩⟩

/-- The prefix of a whole record parses. -/
theorem RecordInside.parses {record : Nat} (h : RecordInside pkt record)
    : ∃ pfx, recordPrefix pkt record = .ok pfx :=
  recordPrefix_total h.header

/-- An address whose bytes are there is filled in. -/
theorem fillSockaddr_total {afi off : Nat} {sa : SockaddrStorage}
    (fits : off + addrLen afi ≤ pkt.length)
    : ∃ sa', fillSockaddr (lispafiToAf afi) sa pkt off = .ok sa' := by
  by_cases h₁ : afi = lispAfiIpv4
  · subst h₁
    obtain ⟨addr, bytes⟩ : ∃ addr, rdBytes pkt off 4 = .ok addr := rdBytes_total fits
    exact ⟨{ sa with family := afInet, sinAddr := addr },
      by simp [fillSockaddr, lispafiToAf_ipv4, bytes]⟩
  · by_cases h₂ : afi = lispAfiIpv6
    · subst h₂
      obtain ⟨addr, bytes⟩ : ∃ addr, rdBytes pkt off 16 = .ok addr := rdBytes_total fits
      exact ⟨{ sa with family := afInet6, sin6Addr := addr },
        by simp [fillSockaddr, lispafiToAf_ipv6, bytes]⟩
    · exact ⟨sa, by simp [fillSockaddr, lispafiToAf_other h₁ h₂]⟩

/-- A locator whose bytes are there is copied out. -/
theorem lispLocatorPktToLocator_total {lisploc : Nat}
    (inside : lisploc + 8 + addrLen (locatorAfi pkt lisploc) ≤ pkt.length)
    : ∃ locator, lispLocatorPktToLocator pkt lisploc = .ok locator := by
  obtain ⟨locAddr, fill⟩ : ∃ locAddr, fillSockaddr (lispafiToAf (locatorAfi pkt lisploc)) .zero pkt
      (lisploc + sizeofLispLocator) = .ok locAddr := fillSockaddr_total inside
  have byte (i : Nat) (h : i < 8) : rd pkt (lisploc + i) = .ok (byteAt pkt (lisploc + i)) :=
    rd_eq_ok.mpr ⟨by omega, rfl⟩
  have afi : rd16 pkt (lisploc + 6) = .ok (locatorAfi pkt lisploc) :=
    rd16_eq_ok.mpr ⟨by omega, rfl⟩
  have first := byte 0 (by decide)
  rw [Nat.add_zero] at first
  simp only [lispLocatorPktToLocator, afi, fill, first, byte 1 (by decide), byte 2 (by decide),
    byte 3 (by decide), bind, Except.bind]
  exact ⟨_, rfl⟩

theorem rd32_total {off : Nat} (inside : off + 4 ≤ pkt.length)
    : ∃ n, rd32 pkt off = .ok n := by
  simp only [rd32, bind_eq_ok, rd_eq_ok, pure_eq_ok]
  exact ⟨_, _, ⟨by omega, rfl⟩, _, ⟨by omega, rfl⟩, _, ⟨by omega, rfl⟩, _, ⟨by omega, rfl⟩, rfl⟩

end

end Lixy
