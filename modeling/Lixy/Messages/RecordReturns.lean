import Lixy.Messages.ReadBounds
import Lixy.Messages.RecordPuts

/-! When `process_lisp_map_reply` returns: its reads stay inside the datagram, and no lookup
fails an assertion. Both are conditions on the bytes and on what the table holds before.
-/

namespace Lixy

open ByteStrings
open LongestPrefix (Store best)

/-- The record stores a mapnode for its prefix: a negative one by its action, a positive one
where nothing covers the prefix.
-/
def RecordUpdates (pkt : List Byte) (record : Nat) (store : Store Bool (Prefix × Mapnode))
    (pfx : Prefix)
    : Prop :=
  recordLocatorCount pkt record = 0 ∧ (recordAct pkt record = 1 ∨ recordAct pkt record = 3)
    ∨ recordLocatorCount pkt record ≠ 0 ∧ best store pfx.key = none

/-- The record is processed to its end where the table holds `o`: what is read of it lies
inside, a prefix that is looked up is not too long, and the table admits one that is stored.
-/
structure RecordReturns (pkt : List Byte) (record : Nat) (o : Outline Mapnode) : Prop where
  address : record + 12 + addrLen (recordAfi pkt record) ≤ pkt.length
  text : recordLocatorCount pkt record = 0 → 4 ≤ recordAct pkt record → TextPrinted pkt record
  locators : recordLocatorCount pkt record ≠ 0
    → EachLocator pkt (LocatorInside pkt) (recordLocatorCount pkt record)
        (recordLocators pkt record)
  selected : ∀ pfx, recordPrefix pkt record = .ok pfx → recordLocatorCount pkt record ≠ 0
    → best o.store pfx.key = none
    → recordSelected pkt record + 8 + addrLen (locatorAfi pkt (recordSelected pkt record))
        ≤ pkt.length
  short : ∀ pfx, recordPrefix pkt record = .ok pfx
    → recordLocatorCount pkt record ≠ 0 ∨ recordAct pkt record = 1 ∨ recordAct pkt record = 3
    → pfx.bitlen ≤ 128
  admitted : ∀ pfx, recordPrefix pkt record = .ok pfx → RecordUpdates pkt record o.store pfx
    → o.Admits pfx.key

/-- Every one of `n` records that the loop comes to from `record` on is processed to its end. -/
def RecordsReturn (pkt : List Byte) : Nat → Nat → Outline Mapnode → Prop
  | 0, _, _ => True
  | n + 1, record, o =>
      RecordReturns pkt record o
        ∧ ((recordPut pkt record o.store).2 = true
          → RecordsReturn pkt n (recordEnd pkt record) (o.behind pkt record))

section

variable {pkt : List Byte} {record : Nat} {lisp lisp' : Lisp}

-----------------------------------------------------------------------------------------
-- One record
-----------------------------------------------------------------------------------------

/-- A search finds nothing exactly when nothing covers the prefix. -/
theorem searchMapnode_eq_none {table : Maptable} {pfx : Prefix} (ok : TableOk table)
    (short : pfx.bitlen ≤ 128)
    : searchMapnode table pfx = .ok none ↔ best table.store pfx.key = none := by
  rcases searchMapnode_spec ok short with ⟨none, search⟩ | ⟨e, z, found, search, _⟩
  · exact iff_of_true search none
  · rw [search, found]
    exact iff_of_false nofun nofun

/-- A record that was processed to its end met the conditions for it. -/
theorem recordReturns_of_done {next : Nat} {more : Bool} (ok : TableOk lisp.rib)
    (done : mapReplyRecord pkt record lisp = .ok (lisp', next, more))
    : RecordReturns pkt record lisp.rib.outline := by
  have inside : Inside (mapReplyRecord pkt record lisp) := by
    rw [done]
    exact inside_ok _
  obtain ⟨address, text, located⟩ := inside_mapReplyRecord.mp inside
  have conditions (short : ∀ pfx, recordPrefix pkt record = .ok pfx
        → recordLocatorCount pkt record ≠ 0 ∨ recordAct pkt record = 1 ∨ recordAct pkt record = 3
        → pfx.bitlen ≤ 128)
      (admitted : ∀ pfx, recordPrefix pkt record = .ok pfx
        → RecordUpdates pkt record lisp.rib.store pfx → lisp.rib.outline.Admits pfx.key)
      : RecordReturns pkt record lisp.rib.outline := by
    refine ⟨address, text, fun some => (located some).1, ?_, short, admitted⟩
    intro pfx parsed some missed
    refine (located some).2 pfx parsed ?_
    exact (searchMapnode_eq_none ok (short pfx parsed (Or.inl some))).mpr missed
  have unstored (empty : recordLocatorCount pkt record = 0)
      (act : recordAct pkt record ≠ 1 ∧ recordAct pkt record ≠ 3)
      : RecordReturns pkt record lisp.rib.outline := by
    refine conditions (fun _ _ looked => ?_) (fun _ _ updates => ?_)
    · omega
    · rcases updates with ⟨_, stores⟩ | ⟨some, _⟩
      · omega
      · exact absurd empty some
  have stored {pfx : Prefix} {node : Mapnode} {rib : Maptable} {stored : Bool}
      (parsed : recordPrefix pkt record = .ok pfx)
      (update : updateMapnode lisp.rib pfx node = .ok (rib, stored))
      : RecordReturns pkt record lisp.rib.outline := by
    obtain ⟨short, admitted⟩ := (updateMapnode_total_iff ok node).mp ⟨_, update⟩
    refine conditions (fun _ parsed' _ => ?_) (fun _ parsed' _ => ?_)
    · obtain rfl := Except.ok.inj (parsed.symm.trans parsed')
      exact short
    · obtain rfl := Except.ok.inj (parsed.symm.trans parsed')
      exact admitted
  cases (mapReplyRecord_effect done).2 with
  | ignored empty act _ => exact unstored empty (by omega)
  | asked empty act _ => exact unstored empty (by omega)
  | denied _ _ parsed _ update => exact stored parsed update
  | @refreshed pfx pn mn some parsed search =>
      have short := searchMapnode_short ok search
      refine conditions ?_ ?_
      · rintro other parsed' _
        obtain rfl := Except.ok.inj (parsed.symm.trans parsed')
        exact short
      · rintro other parsed' (⟨empty, _⟩ | ⟨_, missed⟩)
        · exact absurd empty some
        · obtain rfl := Except.ok.inj (parsed.symm.trans parsed')
          cases ((searchMapnode_eq_none ok short).mpr missed).symm.trans search
  | learned _ parsed _ _ _ update => exact stored parsed update

/-- A negative record that meets the conditions is processed. -/
theorem RecordReturns.recordLocIsZero {pfx : Prefix} (h : RecordReturns pkt record lisp.rib.outline)
    (ok : TableOk lisp.rib) (empty : recordLocatorCount pkt record = 0)
    (parsed : recordPrefix pkt record = .ok pfx)
    : ∃ lisp', processLispMapReplyRecordLocIsZero pkt record lisp = .ok lisp' := by
  have header : record + 12 ≤ pkt.length := Nat.le_trans (Nat.le_add_right _ _) h.address
  have act : rd pkt (record + 6) = .ok (byteAt pkt (record + 6)) := rd_eq_ok.mpr ⟨by omega, rfl⟩
  have updates (mn : Mapnode) (stores : recordAct pkt record = 1 ∨ recordAct pkt record = 3)
      : ∃ lisp', (do
          let updated ← updateMapnode lisp.rib pfx mn
          return { lisp with rib := updated.1 }) = Except.ok lisp' := by
    obtain ⟨result, update⟩ := (updateMapnode_total_iff ok mn).mpr
      ⟨h.short pfx parsed (Or.inr stores), h.admitted pfx parsed (Or.inl ⟨empty, stores⟩)⟩
    rw [update]
    exact ⟨_, rfl⟩
  simp only [processLispMapReplyRecordLocIsZero, parsed, act, bind, Except.bind]
  split
  · exact ⟨_, rfl⟩
  · next one => exact updates _ (Or.inl one)
  · exact ⟨_, rfl⟩
  · next three => exact updates _ (Or.inr three)
  · next zero one two three =>
      have unknown : ∀ act : Nat, act ≠ 0 → act ≠ 1 → act ≠ 2 → act ≠ 3 → 4 ≤ act := by omega
      obtain ⟨ends, printed⟩ := h.text empty (unknown _ zero one two three)
      have afi : rd16 pkt (record + 10) = .ok (recordAfi pkt record) :=
        rd16_eq_ok.mpr ⟨header, rfl⟩
      have text : rdString pkt (record + sizeofLispRecord)
          = .ok ((pkt.drop (record + 12)).takeWhile (· ≠ 0)) := if_pos ends
      simp only [afi, text, printed]
      exact ⟨_, rfl⟩

/-- A record that meets the conditions is processed. -/
theorem RecordReturns.done (h : RecordReturns pkt record lisp.rib.outline) (ok : TableOk lisp.rib)
    : ∃ lisp' next more, mapReplyRecord pkt record lisp = .ok (lisp', next, more) := by
  have header : record + 12 ≤ pkt.length := Nat.le_trans (Nat.le_add_right _ _) h.address
  have afi : rd16 pkt (record + 10) = .ok (recordAfi pkt record) := rd16_eq_ok.mpr ⟨header, rfl⟩
  have count : rd pkt (record + 4) = .ok (byteAt pkt (record + 4)) := rd_eq_ok.mpr ⟨by omega, rfl⟩
  obtain ⟨pfx, parsed⟩ := recordPrefix_total h.address
  simp only [mapReplyRecord, afi, count, bind, Except.bind]
  split
  · next zero =>
      obtain ⟨lisp', negative⟩ := h.recordLocIsZero ok (locatorCount_eq_zero.mp zero) parsed
      simp only [negative]
      exact ⟨_, _, _, rfl⟩
  · next zero =>
      have located := mt locatorCount_eq_zero.mpr zero
      have each := h.locators located
      have select : selectLocator pkt (byteAt pkt (record + 4)).toNat (recordLocators pkt record)
          (recordLocators pkt record) = .ok (recordSelected pkt record, recordEnd pkt record) := by
        have first : recordLocators pkt record < pkt.length :=
          Nat.lt_of_lt_of_le (Nat.lt_add_of_pos_right (by decide)) (each.first located)
        exact selectLocator_eq_ok.mpr ⟨Or.inr first, each, rfl, rfl⟩
      rw [recordLocators] at select
      have short := h.short pfx parsed (Or.inl located)
      simp only [select, parsed]
      rcases searchMapnode_spec ok short with ⟨missed, search⟩ | ⟨e, z, _, search, _⟩
      · obtain ⟨locator, chosen⟩ :=
          lispLocatorPktToLocator_total (h.selected pfx parsed located missed)
        obtain ⟨recordTtl, ttl⟩ : ∃ recordTtl, rd32 pkt record = .ok recordTtl :=
          rd32_total (by omega)
        obtain ⟨result, update⟩ := (updateMapnode_total_iff ok (learnedMapnode recordTtl locator)).mpr
          ⟨short, h.admitted pfx parsed (Or.inr ⟨located, missed⟩)⟩
        simp only [learnedMapnode] at update
        simp only [search, ttl, chosen, update]
        split <;> exact ⟨_, _, _, rfl⟩
      · simp only [search]
        exact ⟨_, _, _, rfl⟩

/-- A whole record with a known action and a short prefix is processed where the table has
no orphans.
-/
theorem mapReplyRecord_total {pfx : Prefix} (ok : TableOk lisp.rib)
    (clean : lisp.rib.NoOrphans) (inside : RecordInside pkt record)
    (parsed : recordPrefix pkt record = .ok pfx)
    (known : recordLocatorCount pkt record = 0 → recordAct pkt record ≤ 3)
    (short : recordLocatorCount pkt record ≠ 0
      ∨ recordAct pkt record = 1 ∨ recordAct pkt record = 3 → pfx.bitlen ≤ 128)
    : ∃ lisp' next more, mapReplyRecord pkt record lisp = .ok (lisp', next, more) := by
  have each := eachLocator_inside inside
  have room (lisploc : Nat) : 8 + addrLen (locatorAfi pkt lisploc)
      ≤ lispLocatorPktLen (locatorAfi pkt lisploc) := (addrLen_le _).1
  refine RecordReturns.done ?_ ok
  exact {
    address := inside.header
    text := fun empty unknown => absurd (known empty) (by omega)
    locators := fun _ => each.imp fun lisploc there => by
      have := room lisploc
      rw [LocatorInside]
      omega
    selected := fun _ _ located _ => by
      have there := each.recordSelected located
      have := room (recordSelected pkt record)
      omega
    short := fun other parsed' => by
      obtain rfl := Except.ok.inj (parsed.symm.trans parsed')
      exact short
    admitted := fun _ _ _ => Or.inl ((noOrphans_iff ok.wf).mp clean) }

-----------------------------------------------------------------------------------------
-- The record loop
-----------------------------------------------------------------------------------------

/-- The record loop comes to its end exactly when every record that it comes to does; by
induction on the records.
-/
theorem mapReplyRecords_returns_iff {n : Nat} (ok : TableOk lisp.rib)
    : (∃ lisp' next, mapReplyRecords pkt n record lisp = .ok (lisp', next))
      ↔ RecordsReturn pkt n record lisp.rib.outline := by
  induction n generalizing record lisp with
  | zero => exact iff_of_true ⟨lisp, record, rfl⟩ trivial
  | succ n ih =>
      constructor
      · rintro ⟨lisp', next, done⟩
        obtain ⟨⟨middle, off, more⟩, first, rest⟩ := bind_eq_ok.mp done
        obtain ⟨rfl, effect⟩ := mapReplyRecord_effect first
        obtain ⟨outline, goesOn⟩ := effect.outline ok
        refine ⟨recordReturns_of_done ok first, fun on => ?_⟩
        obtain rfl : more = true := goesOn.symm.trans on
        rw [← outline]
        exact (ih (effect.writes ok).1).mp ⟨lisp', next, rest⟩
      · rintro ⟨here, behind⟩
        obtain ⟨middle, off, more, first⟩ := here.done ok
        obtain ⟨rfl, effect⟩ := mapReplyRecord_effect first
        obtain ⟨outline, goesOn⟩ := effect.outline ok
        cases more with
        | true =>
            have rest := behind goesOn
            rw [← outline] at rest
            obtain ⟨lisp', next, done⟩ := (ih (effect.writes ok).1).mpr rest
            exact ⟨lisp', next, bind_eq_ok.mpr ⟨_, first, done⟩⟩
        | false => exact ⟨middle, _, bind_eq_ok.mpr ⟨_, first, rfl⟩⟩

/-- `process_lisp_map_reply` returns exactly when its count is there and its records do. -/
theorem processLispMapReply_returns_iff (ok : TableOk lisp.rib)
    : (∃ lisp' next, processLispMapReply pkt lisp = .ok (lisp', next))
      ↔ 3 < pkt.length ∧ RecordsReturn pkt (byteAt pkt 3).toNat 12 lisp.rib.outline := by
  constructor
  · rintro ⟨lisp', next, done⟩
    obtain ⟨count, read, records⟩ := bind_eq_ok.mp done
    obtain ⟨there, rfl⟩ := rd_eq_ok.mp read
    exact ⟨there, (mapReplyRecords_returns_iff ok).mp ⟨lisp', next, records⟩⟩
  · rintro ⟨there, records⟩
    obtain ⟨lisp', next, done⟩ := (mapReplyRecords_returns_iff ok).mpr records
    exact ⟨lisp', next, bind_eq_ok.mpr ⟨_, rd_eq_ok.mpr ⟨there, rfl⟩, done⟩⟩

-----------------------------------------------------------------------------------------
-- Mapnodes without a prefix
-----------------------------------------------------------------------------------------

/-- A record that leaves a mapnode without a prefix is processed only where there is none. -/
theorem RecordReturns.recordStray_eq_none {o : Outline Mapnode} (h : RecordReturns pkt record o)
    (some : o.stray ≠ none)
    : recordStray pkt record o.store = none := by
  by_contra leaves
  obtain ⟨node, left⟩ := Option.ne_none_iff_exists'.mp leaves
  obtain ⟨⟨pfx, stored⟩, update, left⟩ := Option.bind_eq_some_iff.mp left
  dsimp only at left
  split at left
  · cases left
  · next unknown =>
      unfold recordUpdate at update
      split at update
      · cases update
      · next pfx' parsed =>
          have own : pfx' = pfx ∧ RecordUpdates pkt record o.store pfx := by
            split at update
            · next empty =>
                obtain ⟨_, denies, same⟩ := Option.map_eq_some_iff.mp update
                obtain rfl := (Prod.mk.inj same).1
                refine ⟨rfl, Or.inl ⟨empty, ?_⟩⟩
                by_contra other
                rw [deniedMapnode_eq_none.mpr (not_or.mp other)] at denies
                cases denies
            · next located =>
                split at update
                · cases update
                · next missed =>
                    split at update
                    · obtain rfl := (Prod.mk.inj (Option.some.inj update)).1
                      exact ⟨rfl, Or.inr ⟨located, missed⟩⟩
                    · cases update
          obtain ⟨rfl, updates⟩ := own
          have zero : pfx'.key = [] := by
            obtain ⟨_, kind⟩ := recordPrefix_eq_ok.mp parsed
            cases kind with
            | ipv4 _ _ => exact absurd (Or.inl rfl) unknown
            | ipv6 _ _ => exact absurd (Or.inl rfl) unknown
            | unknown _ _ => rfl
          rcases h.admitted pfx' parsed updates with none | ⟨bits, _⟩
          · exact some none
          · exact bits zero

/-- So records that are processed leave no second one. -/
theorem RecordsReturn.replyStrays_eq_nil {n : Nat} {o : Outline Mapnode}
    (h : RecordsReturn pkt n record o) (some : o.stray ≠ none)
    : replyStrays pkt n record o.store = [] := by
  induction n generalizing record o with
  | zero => rfl
  | succ n ih =>
      have first := h.1.recordStray_eq_none some
      rw [replyStrays, first, Option.toList_none, List.nil_append]
      split
      · next on =>
          refine ih (o := o.behind pkt record) (h.2 on) ?_
          rw [Outline.behind, first, Option.none_or]
          exact some
      · rfl

/-- The records that are processed leave what stands without a prefix exactly when none leaves
a mapnode there.
-/
theorem RecordsReturn.stray_kept_iff {n : Nat} {o : Outline Mapnode}
    (h : RecordsReturn pkt n record o)
    : (replyStrays pkt n record o.store).getLast?.or o.stray = o.stray
      ↔ replyStrays pkt n record o.store = [] := by
  cases stray : o.stray with
  | none => rw [Option.or_none, List.getLast?_eq_none_iff]
  | some node =>
      have nothing := h.replyStrays_eq_nil (by rw [stray]; nofun)
      rw [nothing]
      exact iff_of_true rfl rfl

end

end Lixy
