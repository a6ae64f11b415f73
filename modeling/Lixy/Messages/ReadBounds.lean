import Mathlib.Data.List.TakeWhile
import Lixy.Messages.RecordEffects

/-! How far the control-message parsers read. A parser that stays inside its datagram does not
depend on the bytes behind it; when each stays inside is said here exactly.
-/

namespace Lixy

open ByteStrings

-----------------------------------------------------------------------------------------
-- Bytes behind the datagram
-----------------------------------------------------------------------------------------

/-- Where it stays inside a datagram, the parser does not depend on what lies behind it. -/
def Confined {α : Type} (f : List Byte → Except Fault α) : Prop :=
  ∀ pkt rest, Inside (f pkt) → f (pkt ++ rest) = f pkt

section

variable {α β : Type}

/-- What a confined parser returns, it returns whatever lies behind the datagram. -/
theorem Confined.eq_ok {f : List Byte → Except Fault α} (h : Confined f) {pkt : List Byte} {a : α}
    (done : f pkt = .ok a) (rest : List Byte)
    : f (pkt ++ rest) = .ok a := by
  rw [← done]
  exact h pkt rest (by rw [done]; exact inside_ok a)

theorem confined_const (x : Except Fault α) : Confined (fun _ => x) := fun _ _ _ => rfl

/-- Confined parsers one after the other are confined. -/
theorem Confined.bind {f : List Byte → Except Fault α} {g : α → List Byte → Except Fault β}
    (first : Confined f) (later : ∀ a, Confined (g a))
    : Confined (fun pkt => f pkt >>= fun a => g a pkt) := by
  intro pkt rest inside
  obtain ⟨start, onwards⟩ := inside_bind.mp inside
  simp only [first pkt rest start]
  cases h : f pkt with
  | error fault => rfl
  | ok a => exact later a pkt rest (onwards a h)

/-- So are confined branches. -/
theorem Confined.ite {f g : List Byte → Except Fault α} (c : Prop) [Decidable c]
    (yes : Confined f) (no : Confined g)
    : Confined (fun pkt => if c then f pkt else g pkt) := by
  by_cases h : c
  · simpa only [h, if_true] using yes
  · simpa only [h, if_false] using no

theorem confined_rd (off : Nat) : Confined (fun pkt => rd pkt off) := by
  intro pkt rest inside
  simp only [rd, List.getElem?_append_left (inside_rd.mp inside)]

theorem confined_rd16 (off : Nat) : Confined (fun pkt => rd16 pkt off) :=
  (confined_rd off).bind fun _ => (confined_rd (off + 1)).bind fun _ => confined_const _

theorem confined_rd32 (off : Nat) : Confined (fun pkt => rd32 pkt off) :=
  (confined_rd off).bind fun _ => (confined_rd (off + 1)).bind fun _ =>
    (confined_rd (off + 2)).bind fun _ => (confined_rd (off + 3)).bind fun _ => confined_const _

theorem confined_rdBytes (off n : Nat) : Confined (fun pkt => rdBytes pkt off n) := by
  intro pkt rest inside
  have fits := inside_rdBytes.mp inside
  obtain ⟨bs, read⟩ := rdBytes_total fits
  simp only [read]
  rw [rdBytes_eq_ok, slice_append_left fits]
  exact rdBytes_eq_ok.mp read

/-- A string that ends inside ends there whatever follows. -/
theorem confined_rdString (off : Nat) : Confined (fun pkt => rdString pkt off) := by
  intro pkt rest inside
  by_cases ends : 0 ∈ pkt.drop off
  · have start : off ≤ pkt.length := by
      by_contra past
      rw [List.drop_eq_nil_of_le (by omega)] at ends
      cases ends
    have ends' : 0 ∈ (pkt ++ rest).drop off := by
      rw [List.drop_append_of_le_length start]
      exact List.mem_append_left _ ends
    simp only [rdString, if_pos ends, if_pos ends']
    rw [List.drop_append_of_le_length start, List.takeWhile_append, if_neg]
    intro whole
    have all := List.takeWhile_eq_self_iff.mp (List.takeWhile_sublist _ |>.eq_of_length whole)
    simpa using all 0 ends
  · simp only [rdString, if_neg ends] at inside
    exact absurd inside (not_inside_readPast _)

end

-----------------------------------------------------------------------------------------
-- The parsers depend on the bytes they read
-----------------------------------------------------------------------------------------

theorem confined_addrToPrefix (af : Int) (off len : Nat) (pfx : Prefix)
    : Confined (fun pkt => addrToPrefix af pkt off len pfx) :=
  Confined.ite _ ((confined_rdBytes off 4).bind fun _ => confined_const _)
    (Confined.ite _ ((confined_rdBytes off 16).bind fun _ => confined_const _) (confined_const _))

theorem confined_fillSockaddr (af : Int) (sa : SockaddrStorage) (off : Nat)
    : Confined (fun pkt => fillSockaddr af sa pkt off) :=
  Confined.ite _ ((confined_rdBytes off 4).bind fun _ => confined_const _)
    (Confined.ite _ ((confined_rdBytes off 16).bind fun _ => confined_const _) (confined_const _))

theorem confined_recordPrefix (record : Nat) : Confined (fun pkt => recordPrefix pkt record) :=
  (confined_rd16 _).bind fun _ => (confined_rd _).bind fun _ => confined_addrToPrefix _ _ _ _

theorem confined_recordLocIsZero (record : Nat) (lisp : Lisp)
    : Confined (fun pkt => processLispMapReplyRecordLocIsZero pkt record lisp) := by
  refine (confined_recordPrefix record).bind fun pfx => (confined_rd _).bind fun byte => ?_
  dsimp only
  generalize (byte >>> 5).toNat = act
  match act with
  | 0 | 1 | 2 | 3 => exact confined_const _
  | _ + 4 =>
      exact (confined_rd16 (record + 10)).bind fun afi =>
        (confined_rdString (record + sizeofLispRecord)).bind fun text =>
          (confined_const (formatString (inetPton (lispafiToAf afi) text))).bind fun _ =>
            confined_const (pure lisp)

theorem confined_lispLocatorPktToLocator (lisploc : Nat)
    : Confined (fun pkt => lispLocatorPktToLocator pkt lisploc) :=
  (confined_rd16 _).bind fun _ => (confined_fillSockaddr _ _ _).bind fun _ =>
    (confined_rd _).bind fun _ => (confined_rd _).bind fun _ => (confined_rd _).bind fun _ =>
      (confined_rd _).bind fun _ => confined_const _

theorem confined_selectLocator (n lisploc tmplisploc : Nat)
    : Confined (fun pkt => selectLocator pkt n lisploc tmplisploc) := by
  induction n generalizing lisploc tmplisploc with
  | zero => exact confined_const _
  | succ n ih =>
      exact (confined_rd _).bind fun _ => (confined_rd _).bind fun _ =>
        (confined_rd16 _).bind fun _ => ih _ _

theorem confined_mapReplyRecord (record : Nat) (lisp : Lisp)
    : Confined (fun pkt => mapReplyRecord pkt record lisp) := by
  refine (confined_rd16 _).bind fun afi => (confined_rd _).bind fun locatorCount => ?_
  refine Confined.ite _ ((confined_recordLocIsZero record lisp).bind fun _ => confined_const _) ?_
  refine (confined_selectLocator _ _ _).bind fun selected =>
    (confined_recordPrefix record).bind fun pfx => (confined_const _).bind fun found => ?_
  cases found with
  | some hit => exact confined_const _
  | none =>
      exact (confined_rd32 record).bind fun _ =>
        (confined_lispLocatorPktToLocator _).bind fun _ => confined_const _

theorem confined_mapReplyRecords (n record : Nat) (lisp : Lisp)
    : Confined (fun pkt => mapReplyRecords pkt n record lisp) := by
  induction n generalizing record lisp with
  | zero => exact confined_const _
  | succ n ih =>
      refine (confined_mapReplyRecord record lisp).bind fun result => ?_
      obtain ⟨lisp', next, more⟩ := result
      cases more with
      | true => exact ih next lisp'
      | false => exact confined_const _

theorem confined_skipItrRlocs (n off : Nat) : Confined (fun pkt => skipItrRlocs pkt n off) := by
  induction n generalizing off with
  | zero => exact confined_const _
  | succ n ih => exact (confined_rd16 _).bind fun _ => ih _

theorem confined_processLispMapRequest : Confined processLispMapRequest := by
  refine (confined_rd _).bind fun flags => Confined.ite _ (confined_const _) ?_
  refine (confined_rd16 _).bind fun locafi => (confined_fillSockaddr _ _ _).bind fun etrAddr =>
    (confined_rd _).bind fun irc => (confined_skipItrRlocs _ _).bind fun qrec => ?_
  exact (confined_rd16 _).bind fun afi => (confined_rd _).bind fun maskLen =>
    (confined_addrToPrefix _ _ _ _).bind fun pfx => (confined_rdBytes _ _).bind fun nonce =>
      confined_const _

theorem confined_dispatch : Confined dispatch := by
  refine (confined_rd 0).bind fun type => ?_
  dsimp only
  refine Confined.ite _ ((confined_rd _).bind fun byte => ?_) ((confined_rd _).bind fun _ =>
    confined_const _)
  generalize (byte >>> 4).toNat = ipV
  split
  · exact (confined_rd _).bind fun _ => confined_const _
  · exact (confined_rd _).bind fun _ => confined_const _
  · exact (confined_const (formatString ipV)).bind fun _ => confined_const (pure Dispatch.dropped)

/-- What a datagram does is settled by its own bytes as long as it is read inside. -/
theorem confined_processLispMapMessage (lisp : Lisp)
    : Confined (fun pkt => processLispMapMessage pkt lisp) := by
  refine confined_dispatch.bind fun target => ?_
  cases target with
  | mapReply =>
      exact ((confined_rd 3).bind fun _ => confined_mapReplyRecords _ _ _).bind
        fun _ => confined_const _
  | mapRequest =>
      refine confined_processLispMapRequest.bind fun call => ?_
      cases call <;> exact confined_const _
  | dropped => exact confined_const _

-----------------------------------------------------------------------------------------
-- The map table reads no datagram
-----------------------------------------------------------------------------------------

theorem inside_searchMapnode (table : Maptable) (pfx : Prefix)
    : Inside (searchMapnode table pfx) := by
  rw [searchMapnode, inside_bind, patriciaSearchBest, patriciaSearchBest2]
  constructor
  · split
    · exact inside_ok _
    · exact inside_assertFailed _
  · rintro (_ | pn) _
    · exact inside_pure _
    · exact inside_pure _

theorem inside_patriciaAttach {α : Type} (t : PatriciaTree α) (pfx : Prefix) (test : List Byte)
    (differ : Nat) (z : Loc α)
    : Inside (patriciaAttach t pfx test differ z) := by
  unfold patriciaAttach
  cases z.node with
  | null => exact inside_nullDereference
  | node a bit npfx data l r =>
      refine inside_ite ?_ (inside_ite (inside_ite ?_ ?_) (inside_ite (inside_ite ?_ ?_) ?_))
      · cases npfx with
        | some _ => exact inside_ok _
        | none => exact inside_ite (inside_assertFailed _) (inside_ok _)
      · exact inside_ite (inside_ok _) (inside_assertFailed _)
      · exact inside_ite (inside_ok _) (inside_assertFailed _)
      · exact inside_ok _
      · exact inside_ok _
      · exact inside_ok _

theorem inside_updateMapnode (table : Maptable) (pfx : Prefix) (node : Mapnode)
    : Inside (updateMapnode table pfx node) := by
  rw [updateMapnode, inside_bind]
  constructor
  · rw [patriciaLookup]
    split
    · dsimp only
      split
      · exact inside_ok _
      · split
        · exact inside_nullDereference
        · exact inside_assertFailed _
        · exact inside_patriciaAttach _ _ _ _ _
    · exact inside_assertFailed _
  · rintro ⟨tree, pn⟩ _
    dsimp only
    split
    · split <;> exact inside_pure _
    · exact inside_pure _

-----------------------------------------------------------------------------------------
-- Map-Reply
-----------------------------------------------------------------------------------------

/-- The text that an unknown action takes the record's address for ends inside, and
`inet_pton` makes 0 of it.
-/
def TextPrinted (pkt : List Byte) (record : Nat) : Prop :=
  0 ∈ pkt.drop (record + 12)
    ∧ inetPton (lispafiToAf (recordAfi pkt record))
        ((pkt.drop (record + 12)).takeWhile (· ≠ 0)) = 0

/-- What is read of the record at `record` lies inside: its own part with the address, the
text that an unknown action prints, the fixed part of each locator, and the address of the
selected one when the prefix is not covered yet.
-/
def RecordReads (pkt : List Byte) (record : Nat) (lisp : Lisp) : Prop :=
  record + 12 + addrLen (recordAfi pkt record) ≤ pkt.length
    ∧ (recordLocatorCount pkt record = 0 → 4 ≤ recordAct pkt record → TextPrinted pkt record)
    ∧ (recordLocatorCount pkt record ≠ 0
        → EachLocator pkt (LocatorInside pkt) (recordLocatorCount pkt record)
            (recordLocators pkt record)
          ∧ ∀ pfx, recordPrefix pkt record = .ok pfx → searchMapnode lisp.rib pfx = .ok none
            → recordSelected pkt record + 8 + addrLen (locatorAfi pkt (recordSelected pkt record))
                ≤ pkt.length)

section

variable {pkt : List Byte} {record : Nat} {lisp : Lisp}

theorem inside_recordPrefix
    : Inside (recordPrefix pkt record)
      ↔ record + 12 + addrLen (recordAfi pkt record) ≤ pkt.length := by
  simp only [recordPrefix, inside_bind, inside_rd, inside_rd16, rd_eq_ok, rd16_eq_ok]
  constructor
  · rintro ⟨header, h⟩
    obtain ⟨_, h⟩ := h _ ⟨header, rfl⟩
    exact (inside_addrToPrefix header).mp (h _ ⟨by omega, rfl⟩)
  · intro h
    refine ⟨by omega, ?_⟩
    rintro _ ⟨header, rfl⟩
    exact ⟨by omega, fun _ _ => (inside_addrToPrefix header).mpr h⟩

theorem inside_rdString {off : Nat} : Inside (rdString pkt off) ↔ 0 ∈ pkt.drop off := by
  unfold rdString
  split <;> simp_all

/-- An unknown action reads the address as text and goes on when 0 is printed for it. -/
theorem inside_unknownAction (header : record + 12 ≤ pkt.length)
    : Inside (do
        let afi ← rd16 pkt (record + 10)
        let text ← rdString pkt (record + sizeofLispRecord)
        formatString (inetPton (lispafiToAf afi) text)
        return lisp : Except Fault Lisp)
      ↔ TextPrinted pkt record := by
  have afi : rd16 pkt (record + 10) = .ok (recordAfi pkt record) := rd16_eq_ok.mpr ⟨header, rfl⟩
  simp only [afi, inside_bind, inside_ok, true_and, Except.ok.injEq, forall_eq', inside_rdString]
  refine and_congr_right fun ends => ?_
  have text : rdString pkt (record + sizeofLispRecord)
      = .ok ((pkt.drop (record + 12)).takeWhile (· ≠ 0)) := if_pos ends
  simp only [text, Except.ok.injEq, forall_eq', inside_formatString]
  exact and_iff_left fun _ _ => inside_pure _

/-- A negative record reads its prefix, and for an unknown action the address as text. -/
theorem inside_recordLocIsZero
    : Inside (processLispMapReplyRecordLocIsZero pkt record lisp)
      ↔ record + 12 + addrLen (recordAfi pkt record) ≤ pkt.length
        ∧ (4 ≤ recordAct pkt record → TextPrinted pkt record) := by
  have updates (pfx : Prefix) (mn : Mapnode) : Inside (do
      let updated ← updateMapnode lisp.rib pfx mn
      return { lisp with rib := updated.1 } : Except Fault Lisp) :=
    inside_bind.mpr ⟨inside_updateMapnode _ _ _, fun _ _ => inside_pure _⟩
  rw [processLispMapReplyRecordLocIsZero, inside_bind, inside_recordPrefix]
  refine and_congr_right fun fits => ?_
  obtain ⟨pfx, parsed⟩ := recordPrefix_total fits
  have header : record + 6 < pkt.length := by omega
  simp only [parsed, Except.ok.injEq, forall_eq', inside_bind, inside_rd, rd_eq_ok, header,
    true_and, forall_eq]
  change _ ↔ (4 ≤ (byteAt pkt (record + 6) >>> 5).toNat → _)
  generalize (byteAt pkt (record + 6) >>> 5).toNat = act
  rcases act with _ | _ | _ | _ | more
  · exact iff_of_true (inside_pure _) (fun known => absurd known (by omega))
  · exact iff_of_true (updates pfx _) (fun known => absurd known (by omega))
  · exact iff_of_true (inside_pure _) (fun known => absurd known (by omega))
  · exact iff_of_true (updates pfx _) (fun known => absurd known (by omega))
  · rw [forall_prop_of_true (by omega)]
    exact inside_unknownAction (by omega)

/-- A locator's fixed part and address are read. -/
theorem inside_lispLocatorPktToLocator {lisploc : Nat} (fixed : LocatorInside pkt lisploc)
    : Inside (lispLocatorPktToLocator pkt lisploc)
      ↔ lisploc + 8 + addrLen (locatorAfi pkt lisploc) ≤ pkt.length := by
  have byte (i : Nat) (h : i < 8) : rd pkt (lisploc + i) = .ok (byteAt pkt (lisploc + i)) :=
    rd_eq_ok.mpr ⟨by omega, rfl⟩
  have afi : rd16 pkt (lisploc + 6) = .ok (locatorAfi pkt lisploc) :=
    rd16_eq_ok.mpr ⟨by omega, rfl⟩
  have first := byte 0 (by decide)
  rw [Nat.add_zero] at first
  simp only [lispLocatorPktToLocator, afi, first, byte 1 (by decide), byte 2 (by decide),
    byte 3 (by decide), inside_bind, inside_ok, inside_pure, Except.ok.injEq, forall_eq',
    inside_fillSockaddr fixed, implies_true, and_true, true_and]

/-- The selection loop, started at the first locator, reads each one's fixed part. -/
theorem inside_selectLocator_first {n off : Nat}
    : Inside (selectLocator pkt n off off) ↔ EachLocator pkt (LocatorInside pkt) n off := by
  by_cases here : off < pkt.length
  · exact inside_selectLocator here
  · cases n with
    | zero => exact iff_of_true (inside_ok _) trivial
    | succ n =>
        refine iff_of_false (fun h => ?_) (fun h => ?_)
        · rw [selectLocator, inside_bind, inside_rd] at h
          exact here h.1
        · have := h.1
          omega

/-- A record reads what `RecordReads` lists. -/
theorem inside_mapReplyRecord
    : Inside (mapReplyRecord pkt record lisp) ↔ RecordReads pkt record lisp := by
  by_cases header : record + 12 ≤ pkt.length
  · have afi : rd16 pkt (record + 10) = .ok (recordAfi pkt record) := rd16_eq_ok.mpr ⟨header, rfl⟩
    have count : rd pkt (record + 4) = .ok (byteAt pkt (record + 4)) :=
      rd_eq_ok.mpr ⟨by omega, rfl⟩
    simp only [mapReplyRecord, afi, count, inside_bind, inside_ok, true_and, Except.ok.injEq,
      forall_eq']
    by_cases zero : byteAt pkt (record + 4) = 0
    · have empty := locatorCount_eq_zero.mp zero
      simp only [if_pos zero, inside_bind, inside_recordLocIsZero, inside_pure, implies_true,
        and_true, RecordReads, empty, ne_eq, not_true, false_imp_iff, true_imp_iff]
    · have located := mt locatorCount_eq_zero.mpr zero
      have reads : RecordReads pkt record lisp
          ↔ EachLocator pkt (LocatorInside pkt) (recordLocatorCount pkt record)
              (recordLocators pkt record)
            ∧ record + 12 + addrLen (recordAfi pkt record) ≤ pkt.length
            ∧ ∀ pfx, recordPrefix pkt record = .ok pfx → searchMapnode lisp.rib pfx = .ok none
              → recordSelected pkt record + 8
                  + addrLen (locatorAfi pkt (recordSelected pkt record)) ≤ pkt.length := by
        unfold RecordReads
        tauto
      rw [if_neg zero, inside_bind, reads]
      refine (and_congr_left' inside_selectLocator_first).trans (and_congr_right fun each => ?_)
      have select : selectLocator pkt (byteAt pkt (record + 4)).toNat (recordLocators pkt record)
          (recordLocators pkt record) = .ok (recordSelected pkt record, recordEnd pkt record) := by
        have first : recordLocators pkt record < pkt.length :=
          Nat.lt_of_lt_of_le (Nat.lt_add_of_pos_right (by decide)) (each.first located)
        exact selectLocator_eq_ok.mpr ⟨Or.inr first, each, rfl, rfl⟩
      rw [recordLocators] at select
      simp only [select, Except.ok.injEq, forall_eq', inside_bind, inside_recordPrefix]
      refine and_congr_right fun fits => ?_
      obtain ⟨pfx, parsed⟩ := recordPrefix_total fits
      obtain ⟨recordTtl, ttl⟩ : ∃ recordTtl, rd32 pkt record = .ok recordTtl :=
        rd32_total (by omega)
      simp only [parsed, Except.ok.injEq, forall_eq', inside_searchMapnode, true_and]
      cases search : searchMapnode lisp.rib pfx with
      | error fault => exact iff_of_true nofun nofun
      | ok found =>
          cases found with
          | some hit => exact iff_of_true (by rintro _ ⟨⟩; exact inside_pure _) nofun
          | none =>
              have fixed := each.recordSelected located
              simp only [Except.ok.injEq, forall_eq', ttl, inside_bind, inside_ok, true_and,
                inside_lispLocatorPktToLocator fixed, true_imp_iff]
              refine and_iff_left fun locator _ => ⟨inside_updateMapnode _ _ _, ?_⟩
              rintro ⟨rib, stored⟩ _
              exact inside_ite (inside_pure _) (inside_pure _)
  · refine iff_of_false (fun h => ?_) (fun h => ?_)
    · rw [mapReplyRecord, inside_bind, inside_rd16] at h
      omega
    · have := h.1
      omega

end

/-- The record loop stays inside when each record that it reaches does; by induction on the
records.
-/
theorem inside_mapReplyRecords {pkt : List Byte} {n record : Nat} {lisp : Lisp}
    : Inside (mapReplyRecords pkt n record lisp)
      ↔ RecordsGuarded (RecordReads pkt) pkt n record lisp := by
  induction n generalizing record lisp with
  | zero => exact iff_of_true (inside_ok _) trivial
  | succ n ih =>
      rw [mapReplyRecords, inside_bind, inside_mapReplyRecord, RecordsGuarded]
      refine and_congr_right fun reads => ?_
      constructor
      · intro h lisp' next done
        exact ih.mp (h _ done)
      · rintro h ⟨lisp', next, more⟩ done
        cases more with
        | true => exact ih.mpr (h _ _ done)
        | false => exact inside_pure _

-----------------------------------------------------------------------------------------
-- Map-Request
-----------------------------------------------------------------------------------------

section

variable (pkt : List Byte)

/-- The offset behind `n` ITR-RLOCs. -/
def itrRlocsEnd : Nat → Nat → Nat
  | 0, off => off
  | n + 1, off => itrRlocsEnd n (off + requestLocLen (field16 pkt off))

/-- `req->irc`, one less than the number of ITR-RLOCs -/
def requestIrc : Nat := (byteAt pkt 2 &&& 0x1f).toNat

/-- The source EID's AFI. -/
def sourceAfi : Nat := field16 pkt 12

/-- The offset that the source EID is taken to end at: its address counts as one of IPv6
whenever it is not of IPv4.
-/
def sourceEnd : Nat := 14 + if sourceAfi pkt = lispAfiIpv4 then 4 else 16

/-- The offset at which the request's record is looked for. -/
def requestRecord : Nat := itrRlocsEnd pkt (requestIrc pkt + 1) (sourceEnd pkt)

/-- The AFI found in that record. -/
def requestAfi : Nat := field16 pkt (requestRecord pkt + 2)

/-- `eid_mask_len` of that record -/
def requestMaskLen : Nat := (byteAt pkt (requestRecord pkt + 1)).toNat

end

section

variable {pkt : List Byte}

/-- An ITR-RLOC has at least its AFI. -/
theorem two_le_requestLocLen (afi : Nat) : 2 ≤ requestLocLen afi := by
  unfold requestLocLen
  split
  · decide
  · split <;> decide

/-- ITR-RLOCs only move the offset on. -/
theorem le_itrRlocsEnd (n off : Nat) : off ≤ itrRlocsEnd pkt n off := by
  induction n generalizing off with
  | zero => exact Nat.le_refl _
  | succ n ih => exact Nat.le_trans (Nat.le_add_right _ _) (ih _)

/-- ITR-RLOCs that end inside are skipped. -/
theorem skipItrRlocs_total {n off : Nat} (fits : itrRlocsEnd pkt n off ≤ pkt.length)
    : skipItrRlocs pkt n off = .ok (itrRlocsEnd pkt n off) := by
  induction n generalizing off with
  | zero => rfl
  | succ n ih =>
      have here : off + 2 ≤ pkt.length := by
        have beyond : off + requestLocLen (field16 pkt off) ≤ itrRlocsEnd pkt (n + 1) off :=
          le_itrRlocsEnd n _
        have := two_le_requestLocLen (field16 pkt off)
        omega
      have afi : rd16 pkt off = .ok (field16 pkt off) := rd16_eq_ok.mpr ⟨here, rfl⟩
      simp only [skipItrRlocs, afi, bind, Except.bind]
      exact ih fits

/-- Skipping that stays inside returns the end of the ITR-RLOCs. -/
theorem skipItrRlocs_of_inside {n off : Nat} (inside : Inside (skipItrRlocs pkt n off))
    : skipItrRlocs pkt n off = .ok (itrRlocsEnd pkt n off) := by
  induction n generalizing off with
  | zero => rfl
  | succ n ih =>
      rw [skipItrRlocs, inside_bind, inside_rd16] at inside
      have afi : rd16 pkt off = .ok (field16 pkt off) := rd16_eq_ok.mpr ⟨inside.1, rfl⟩
      simp only [skipItrRlocs, afi, bind, Except.bind]
      exact ih (inside.2 _ afi)

/-- The source EID's address has room where it is taken to lie. -/
theorem sourceAddr_le : 14 + addrLen (sourceAfi pkt) ≤ sourceEnd pkt := by
  unfold sourceEnd addrLen
  split
  · exact Nat.le_refl _
  · split <;> decide

/-- A probe whose record is found inside is answered for the prefix in it, at its source EID. -/
theorem processLispMapRequest_probe (probe : (byteAt pkt 0).getLsbD 1 = true)
    (fits : requestRecord pkt + 4 ≤ pkt.length)
    : ∃ nonce etrAddr, rdBytes pkt 4 8 = .ok nonce
        ∧ fillSockaddr (lispafiToAf (sourceAfi pkt))
            { SockaddrStorage.zero with family := ((lispafiToAf (sourceAfi pkt)) % 65536).toNat }
            pkt 14 = .ok etrAddr
        ∧ processLispMapRequest pkt = (do
            let pfx ← addrToPrefix (lispafiToAf (requestAfi pkt)) pkt (requestRecord pkt + 4)
              (requestMaskLen pkt) .zero
            return some (pfx, nonce.toList, etrAddr)) := by
  have source : 14 + addrLen (sourceAfi pkt) ≤ sourceEnd pkt := sourceAddr_le
  have skipped : sourceEnd pkt ≤ requestRecord pkt := le_itrRlocsEnd _ _
  obtain ⟨nonce, nonce_eq⟩ : ∃ nonce, rdBytes pkt 4 8 = .ok nonce := rdBytes_total (by omega)
  obtain ⟨etrAddr, fill⟩ : ∃ etrAddr, fillSockaddr (lispafiToAf (sourceAfi pkt))
      { SockaddrStorage.zero with family := ((lispafiToAf (sourceAfi pkt)) % 65536).toNat } pkt 14
      = .ok etrAddr := fillSockaddr_total (by omega)
  refine ⟨nonce, etrAddr, nonce_eq, fill, ?_⟩
  have flags : rd pkt 0 = .ok (byteAt pkt 0) := rd_eq_ok.mpr ⟨by omega, rfl⟩
  have locafi : rd16 pkt 12 = .ok (sourceAfi pkt) := rd16_eq_ok.mpr ⟨by omega, rfl⟩
  have irc : rd pkt 2 = .ok (byteAt pkt 2) := rd_eq_ok.mpr ⟨by omega, rfl⟩
  have skip : skipItrRlocs pkt (requestIrc pkt + 1) (sourceEnd pkt) = .ok (requestRecord pkt) :=
    skipItrRlocs_total (Nat.le_trans (Nat.le_add_right _ 4) fits)
  have afi : rd16 pkt (requestRecord pkt + 2) = .ok (requestAfi pkt) := rd16_eq_ok.mpr ⟨fits, rfl⟩
  have maskLen : rd pkt (requestRecord pkt + 1) = .ok (byteAt pkt (requestRecord pkt + 1)) :=
    rd_eq_ok.mpr ⟨by omega, rfl⟩
  rw [processLispMapRequest, flags]
  change (if (byteAt pkt 0).getLsbD 1 = false then _ else _) = _
  rw [if_neg (by rw [probe]; decide), locafi]
  change (fillSockaddr _ _ pkt 14 >>= _) = _
  rw [fill]
  change (rd pkt 2 >>= _) = _
  rw [irc]
  change (skipItrRlocs pkt (requestIrc pkt + 1) (sourceEnd pkt) >>= _) = _
  rw [skip]
  change (rd16 pkt (requestRecord pkt + 2) >>= _) = _
  rw [afi]
  change (rd pkt (requestRecord pkt + 1) >>= _) = _
  rw [maskLen]
  simp only [nonce_eq]
  rfl

/-- A Map-Request's reads stay inside when, for a probe, the record found and the address in
it do.
-/
theorem inside_processLispMapRequest
    : Inside (processLispMapRequest pkt)
      ↔ 0 < pkt.length
        ∧ ((byteAt pkt 0).getLsbD 1 = true
          → requestRecord pkt + 4 + addrLen (requestAfi pkt) ≤ pkt.length) := by
  by_cases start : 0 < pkt.length
  · simp only [start, true_and]
    have flags : rd pkt 0 = .ok (byteAt pkt 0) := rd_eq_ok.mpr ⟨start, rfl⟩
    cases probe : (byteAt pkt 0).getLsbD 1 with
    | false =>
        refine iff_of_true ?_ nofun
        rw [processLispMapRequest, flags]
        change Inside (if (byteAt pkt 0).getLsbD 1 = false then pure none else _)
        rw [if_pos probe]
        exact inside_pure _
    | true =>
        rw [forall_prop_of_true rfl]
        have answered (fits : requestRecord pkt + 4 ≤ pkt.length)
            : Inside (processLispMapRequest pkt)
              ↔ requestRecord pkt + 4 + addrLen (requestAfi pkt) ≤ pkt.length := by
          obtain ⟨nonce, etrAddr, _, _, request⟩ := processLispMapRequest_probe probe fits
          rw [request, inside_bind, inside_addrToPrefix fits]
          exact and_iff_left fun _ _ => inside_pure _
        constructor
        · intro h
          refine (answered ?_).mp h
          rw [processLispMapRequest, flags] at h
          change Inside (if (byteAt pkt 0).getLsbD 1 = false then _ else _) at h
          rw [if_neg (by rw [probe]; decide), inside_bind, inside_rd16] at h
          obtain ⟨header, h⟩ := h
          obtain ⟨source, h⟩ := inside_bind.mp (h _ (rd16_eq_ok.mpr ⟨header, rfl⟩))
          obtain ⟨etrAddr, fill⟩ := fillSockaddr_total ((inside_fillSockaddr header).mp source)
          obtain ⟨_, h⟩ := inside_bind.mp (h _ fill)
          obtain ⟨skip, h⟩ := inside_bind.mp
            (h _ (rd_eq_ok.mpr ⟨Nat.lt_of_lt_of_le (by decide) header, rfl⟩))
          obtain ⟨record, _⟩ := inside_bind.mp (h _ (skipItrRlocs_of_inside skip))
          exact inside_rd16.mp record
        · intro h
          exact (answered (by omega)).mpr h
  · refine iff_of_false (fun h => ?_) (fun h => start h.1)
    rw [processLispMapRequest, inside_bind, inside_rd] at h
    exact start h.1

end

-----------------------------------------------------------------------------------------
-- Every message
-----------------------------------------------------------------------------------------

/-- The IP version behind an encapsulation header. -/
def innerVersion (pkt : List Byte) : Nat := (byteAt pkt 4 >>> 4).toNat

/-- The offset of the message whose type counts: behind the encapsulation header, if there is
one; nowhere for an unknown inner IP version.
-/
def controlOffset (pkt : List Byte) : Option Nat :=
  if (byteAt pkt 0 >>> 4).toNat = lispEcapCtl then
    if innerVersion pkt = 4 then
      some 32
    else if innerVersion pkt = 6 then
      some 52
    else
      none
  else
    some 0

/-- What an encapsulation header is asked for: the inner IP version, which is printed where it is
not known.
-/
def InnerReads (pkt : List Byte) : Prop :=
  (byteAt pkt 0 >>> 4).toNat = lispEcapCtl
    → 4 < pkt.length ∧ (innerVersion pkt = 4 ∨ innerVersion pkt = 6 ∨ innerVersion pkt = 0)

/-- The reads of a whole message lie inside: of the bytes that choose a parser, and of the
message by that parser.
-/
def MessageReads (pkt : List Byte) (lisp : Lisp) : Prop :=
  0 < pkt.length ∧ InnerReads pkt
    ∧ ∀ ctl ∈ controlOffset pkt, ctl < pkt.length
      ∧ ((byteAt pkt ctl >>> 4).toNat = lispMapRply
        → 3 < pkt.length ∧ RecordsGuarded (RecordReads pkt) pkt (byteAt pkt 3).toNat 12 lisp)
      ∧ ((byteAt pkt ctl >>> 4).toNat = lispMapRqst → (byteAt pkt 0).getLsbD 1 = true
        → requestRecord pkt + 4 + addrLen (requestAfi pkt) ≤ pkt.length)

section

variable {pkt : List Byte} {lisp : Lisp}

/-- The parser goes by the type at the control offset. -/
theorem dispatch_of_reads (start : 0 < pkt.length) (inner : InnerReads pkt)
    : dispatch pkt
      = match controlOffset pkt with
        | none => .ok .dropped
        | some ctl => do
            let type := (← rd pkt ctl) >>> 4
            if type.toNat = lispMapRply then
              return .mapReply
            else if type.toNat = lispMapRqst then
              return .mapRequest
            else
              return .dropped := by
  have first : rd pkt 0 = .ok (byteAt pkt 0) := rd_eq_ok.mpr ⟨start, rfl⟩
  rw [dispatch, controlOffset, first]
  by_cases ecap : (byteAt pkt 0 >>> 4).toNat = lispEcapCtl
  · obtain ⟨there, known⟩ := inner ecap
    have ip : rd pkt 4 = .ok (byteAt pkt 4) := rd_eq_ok.mpr ⟨there, rfl⟩
    rw [if_pos ecap]
    change (if (byteAt pkt 0 >>> 4).toNat = lispEcapCtl then rd pkt 4 >>= _ else _) = _
    rw [if_pos ecap, ip]
    dsimp only [bind, Except.bind]
    change innerVersion pkt = 4 ∨ innerVersion pkt = 6 ∨ innerVersion pkt = 0 at known
    rcases known with ipV | ipV | ipV
    · rw [if_pos ipV, show (byteAt pkt 4 >>> 4).toNat = 4 from ipV]
      rfl
    · rw [if_neg (by rw [ipV]; decide), if_pos ipV, show (byteAt pkt 4 >>> 4).toNat = 6 from ipV]
      rfl
    · rw [if_neg (by rw [ipV]; decide), if_neg (by rw [ipV]; decide),
        show (byteAt pkt 4 >>> 4).toNat = 0 from ipV]
      rfl
  · rw [if_neg ecap]
    change (if (byteAt pkt 0 >>> 4).toNat = lispEcapCtl then _ else _) = _
    rw [if_neg ecap]
    rfl

/-- A parser chosen by reads inside was asked no more of the encapsulation header. -/
theorem innerReads_of_inside (start : 0 < pkt.length) (inside : Inside (dispatch pkt))
    : InnerReads pkt := by
  intro ecap
  have first : rd pkt 0 = .ok (byteAt pkt 0) := rd_eq_ok.mpr ⟨start, rfl⟩
  rw [dispatch, first] at inside
  change Inside (if (byteAt pkt 0 >>> 4).toNat = lispEcapCtl then rd pkt 4 >>= _ else _) at inside
  rw [if_pos ecap, inside_bind, inside_rd] at inside
  obtain ⟨there, inside⟩ := inside
  have chosen := inside _ (rd_eq_ok.mpr ⟨there, rfl⟩)
  refine ⟨there, ?_⟩
  by_contra other
  obtain ⟨not4, other⟩ := not_or.mp other
  obtain ⟨not6, not0⟩ := not_or.mp other
  dsimp only at chosen
  split at chosen
  · next ipV => exact not4 ipV
  · next ipV => exact not6 ipV
  · obtain ⟨printed, _⟩ := inside_bind.mp chosen
    exact not0 (Int.ofNat_eq_zero.mp (inside_formatString.mp printed))

/-- A Map-Reply's reads are those of its records. -/
theorem inside_processLispMapReply
    : Inside (processLispMapReply pkt lisp)
      ↔ 3 < pkt.length ∧ RecordsGuarded (RecordReads pkt) pkt (byteAt pkt 3).toNat 12 lisp := by
  rw [processLispMapReply, inside_bind, inside_rd]
  refine and_congr_right fun count => ?_
  constructor
  · exact fun h => inside_mapReplyRecords.mp (h _ (rd_eq_ok.mpr ⟨count, rfl⟩))
  · intro h recordCount read
    obtain ⟨_, rfl⟩ := rd_eq_ok.mp read
    exact inside_mapReplyRecords.mpr h

/-- A message is read inside exactly when `MessageReads` says so. -/
theorem inside_processLispMapMessage
    : Inside (processLispMapMessage pkt lisp) ↔ MessageReads pkt lisp := by
  have reply : Inside (do
      let result ← processLispMapReply pkt lisp
      return result.1 : Except Fault Lisp) ↔ Inside (processLispMapReply pkt lisp) := by
    rw [inside_bind]
    exact and_iff_left fun _ _ => inside_pure _
  have request {next : Option (Prefix × List Byte × SockaddrStorage) → Except Fault Lisp}
      (total : ∀ call, Inside (next call))
      : Inside (processLispMapRequest pkt >>= next) ↔ Inside (processLispMapRequest pkt) := by
    rw [inside_bind]
    exact and_iff_left fun call _ => total call
  by_cases start : 0 < pkt.length
  · by_cases inner : InnerReads pkt
    · simp only [MessageReads, start, true_and, eq_true inner]
      rw [processLispMapMessage, dispatch_of_reads start inner]
      cases offset : controlOffset pkt with
      | none => exact iff_of_true (inside_pure _) fun _ mem => absurd mem (Option.not_mem_none _)
      | some ctl =>
          simp only [Option.mem_some_iff, forall_eq']
          by_cases there : ctl < pkt.length
          · have type : rd pkt ctl = .ok (byteAt pkt ctl) := rd_eq_ok.mpr ⟨there, rfl⟩
            simp only [type, there, true_and]
            change Inside ((if (byteAt pkt ctl >>> 4).toNat = lispMapRply then _ else _) >>= _) ↔ _
            by_cases rply : (byteAt pkt ctl >>> 4).toNat = lispMapRply
            · have other : ¬ (byteAt pkt ctl >>> 4).toNat = lispMapRqst := by
                rw [rply]
                decide
              rw [if_pos rply, forall_prop_of_true rply, forall_prop_of_false other, and_true,
                ← inside_processLispMapReply]
              exact reply
            · rw [if_neg rply, forall_prop_of_false rply, true_and]
              by_cases rqst : (byteAt pkt ctl >>> 4).toNat = lispMapRqst
              · rw [if_pos rqst, forall_prop_of_true rqst]
                refine (request ?_).trans
                  (inside_processLispMapRequest.trans (and_iff_right start))
                rintro (_ | call)
                · exact inside_pure _
                · exact inside_pure _
              · rw [if_neg rqst, forall_prop_of_false rqst]
                exact iff_of_true (inside_pure _) trivial
          · refine iff_of_false (fun h => ?_) (fun h => there h.1)
            rw [bind_assoc, inside_bind, inside_rd] at h
            exact there h.1
    · refine iff_of_false (fun h => ?_) (fun h => inner h.2.1)
      exact inner (innerReads_of_inside start (inside_bind.mp h).1)
  · refine iff_of_false (fun h => ?_) (fun h => start h.1)
    rw [processLispMapMessage, dispatch, bind_assoc, inside_bind, inside_rd] at h
    exact start h.1

end

/-- For every datagram and every state: the parsers stay inside exactly when the reads that
`MessageReads` lists do; and then the bytes behind the datagram do not matter.
Witness: a start that stays inside and a continuation that does make a whole that does.
-/
theorem message_reads_inside_iff (pkt : List Byte) (lisp : Lisp)
    : (Inside (processLispMapMessage pkt lisp) ↔ MessageReads pkt lisp)
      ∧ (MessageReads pkt lisp
        → ∀ rest, processLispMapMessage (pkt ++ rest) lisp = processLispMapMessage pkt lisp) :=
  ⟨inside_processLispMapMessage, fun reads rest =>
    confined_processLispMapMessage lisp pkt rest (inside_processLispMapMessage.mpr reads)⟩

/-- A Map-Reply of 24 bytes whose record ends before the address of its EID prefix. -/
def truncatedReply : List Byte :=
  [0x28, 0, 0, 1, 0, 0, 0, 0, 0, 0, 0, 0, 0, 0, 0, 10, 0, 8, 0x20, 0, 0, 0, 0, 1]

/-- The address of that record is read behind the end. -/
theorem truncatedReply_read_past
    : ¬ ∀ pkt lisp, sizeofIp + sizeofLispControl ≤ pkt.length → pkt.length ≤ lispMsgBufLen
        → Inside (processLispMapMessage pkt lisp) := by
  intro inside
  have past : processLispMapMessage truncatedReply Lisp.start = .error (.readPast 24) := rfl
  exact (inside truncatedReply Lisp.start (by decide) (by decide)).1 24 past

end Lixy
