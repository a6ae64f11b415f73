import Lixy.Messages.RecordEffects

/-! A Map-Reply in abstract terms: the entries that its records put, one after the other, given
the entries that are stored.
-/

namespace Lixy

open ByteStrings
open LongestPrefix (Store best insertAll)

-----------------------------------------------------------------------------------------
-- What a record puts
-----------------------------------------------------------------------------------------

/-- What storing a mapnode for a prefix puts: nothing over a STATIC entry or for a prefix of an
unknown family, and else an entry whose prefix is the one there or a copy.
-/
def putFor (store : Store Bool (Prefix × Mapnode)) (pfx : Prefix) (node : Mapnode)
    : Option (Prefix × Mapnode) :=
  match store pfx.key with
  | some old => if old.2.state = .static then none else some (old.1, node)
  | none => (refPrefix pfx).map fun copy => (copy, node)

/-- What the record at `record` puts, and whether the records behind it are processed. -/
def recordPut (pkt : List Byte) (record : Nat) (store : Store Bool (Prefix × Mapnode))
    : Option (Prefix × Mapnode) × Bool :=
  match recordPrefix pkt record with
  | .error _ => (none, true)
  | .ok pfx =>
      if recordLocatorCount pkt record = 0 then
        ((deniedMapnode (recordAct pkt record)).bind (putFor store pfx), true)
      else
        match best store pfx.key with
        | some (_, e) => (some (e.1, { e.2 with ttl := mapttlDefault }), false)
        | none =>
            match rd32 pkt record, lispLocatorPktToLocator pkt (recordSelected pkt record) with
            | .ok recordTtl, .ok locator => (putFor store pfx (learnedMapnode recordTtl locator), true)
            | _, _ => (none, true)

/-- What the record at `record` has `update_mapnode` store, and for which prefix. -/
def recordUpdate (pkt : List Byte) (record : Nat) (store : Store Bool (Prefix × Mapnode))
    : Option (Prefix × Mapnode) :=
  match recordPrefix pkt record with
  | .error _ => none
  | .ok pfx =>
      if recordLocatorCount pkt record = 0 then
        (deniedMapnode (recordAct pkt record)).map fun node => (pfx, node)
      else
        match best store pfx.key with
        | some _ => none
        | none =>
            match rd32 pkt record, lispLocatorPktToLocator pkt (recordSelected pkt record) with
            | .ok recordTtl, .ok locator => some (pfx, learnedMapnode recordTtl locator)
            | _, _ => none

/-- The mapnode that the record leaves without a prefix: its prefix has neither a copy nor an
entry.
-/
def recordStray (pkt : List Byte) (record : Nat) (store : Store Bool (Prefix × Mapnode))
    : Option Mapnode :=
  (recordUpdate pkt record store).bind fun update =>
    if (refPrefix update.1).isSome ∨ (store update.1.key).isSome then none else some update.2

/-- Put entries under their own keys, in order. -/
def putAll (store : Store Bool (Prefix × Mapnode)) (es : List (Prefix × Mapnode))
    : Store Bool (Prefix × Mapnode) :=
  insertAll store (es.map fun e => (e.1.key, e))

/-- What `n` records from `record` on put, in order. -/
def replyPuts (pkt : List Byte)
    : Nat → Nat → Store Bool (Prefix × Mapnode) → List (Prefix × Mapnode)
  | 0, _, _ => []
  | n + 1, record, store =>
      let put := recordPut pkt record store
      put.1.toList
        ++ if put.2 then
            replyPuts pkt n (recordEnd pkt record) (putAll store put.1.toList)
          else
            []

/-- What the table holds behind the record. -/
def Outline.behind (o : Outline Mapnode) (pkt : List Byte) (record : Nat) : Outline Mapnode where
  store := putAll o.store (recordPut pkt record o.store).1.toList
  stray := (recordStray pkt record o.store).or o.stray

/-- What it holds behind `n` records from `record` on. -/
def Outline.behindAll (pkt : List Byte) : Nat → Nat → Outline Mapnode → Outline Mapnode
  | 0, _, o => o
  | n + 1, record, o =>
      if (recordPut pkt record o.store).2 then
        behindAll pkt n (recordEnd pkt record) (o.behind pkt record)
      else
        o.behind pkt record

/-- The mapnodes that `n` records from `record` on leave without a prefix. -/
def replyStrays (pkt : List Byte) : Nat → Nat → Store Bool (Prefix × Mapnode) → List Mapnode
  | 0, _, _ => []
  | n + 1, record, store =>
      let put := recordPut pkt record store
      (recordStray pkt record store).toList
        ++ if put.2 then
            replyStrays pkt n (recordEnd pkt record) (putAll store put.1.toList)
          else
            []

theorem putAll_append (store : Store Bool (Prefix × Mapnode)) (es more : List (Prefix × Mapnode))
    : putAll store (es ++ more) = putAll (putAll store es) more := by
  rw [putAll, List.map_append, LongestPrefix.insertAll_append]
  rfl

-----------------------------------------------------------------------------------------
-- Kinds of puts
-----------------------------------------------------------------------------------------

/-- The entry tells that packets are not to be forwarded. -/
abbrev Denies (e : Prefix × Mapnode) : Prop := e.2.state = .negative ∨ e.2.state = .drop

/-- Every entry is stored under its own key. -/
abbrev Keyed (store : Store Bool (Prefix × Mapnode)) : Prop :=
  ∀ key e, store key = some e → e.1.key = key

theorem TableOk.keyed {table : Maptable} (ok : TableOk table) : Keyed table.store :=
  fun _ _ stored => (ok.store_eq_some_iff.mp stored).2

theorem Keyed.insert {store : Store Bool (Prefix × Mapnode)} (own : Keyed store)
    (e : Prefix × Mapnode)
    : Keyed (LongestPrefix.insert store e.1.key e) := by
  intro key other stored
  by_cases same : key = e.1.key
  · subst same
    rw [LongestPrefix.insert_self] at stored
    rw [← Option.some.inj stored]
  · rw [LongestPrefix.insert_of_ne _ _ same] at stored
    exact own key other stored

/-- What storing a mapnode for a parsed prefix puts has the prefix's key. -/
theorem putFor_key {store : Store Bool (Prefix × Mapnode)} {pfx : Prefix} {node : Mapnode}
    {e : Prefix × Mapnode} (own : ∀ old, store pfx.key = some old → old.1.key = pfx.key)
    (copyable : pfx.Copyable) (put : putFor store pfx node = some e)
    : e.1.key = pfx.key ∧ e.2 = node := by
  unfold putFor at put
  split at put
  · next old there =>
      split at put
      · cases put
      · obtain rfl := Option.some.inj put
        exact ⟨own old there, rfl⟩
  · obtain ⟨copy, copied, rfl⟩ := Option.map_eq_some_iff.mp put
    exact ⟨(refPrefix_eq_some copied copyable).2.2, rfl⟩

/-- Records are parsed into prefixes whose copies keep the key. -/
theorem recordPrefix_copyable {pkt : List Byte} {record : Nat} {pfx : Prefix}
    (parsed : recordPrefix pkt record = .ok pfx)
    : pfx.Copyable := by
  intro _ family
  obtain ⟨_, parsed⟩ := recordPrefix_eq_ok.mp parsed
  cases parsed with
  | ipv4 _ _ => exact .inr (sinTail_setSin _ _)
  | ipv6 _ _ => cases family
  | unknown _ _ => exact .inl (Nat.zero_le _)

/-- How an entry comes to be put: it was there and is refreshed, it denies its prefix in the
stead of no STATIC entry, or it is learned where nothing covers its prefix.
-/
inductive PutOf (store : Store Bool (Prefix × Mapnode)) (e : Prefix × Mapnode) : Bool → Prop
  | refreshed {old : Prefix × Mapnode} (there : store old.1.key = some old)
      (put : e = (old.1, { old.2 with ttl := mapttlDefault }))
      : PutOf store e false
  | denied (denies : Denies e)
      (replaces : ∀ old, store e.1.key = some old → old.2.state ≠ .static ∧ e.1 = old.1)
      : PutOf store e true
  | learned (active : e.2.state = .active) (missed : best store e.1.key = none)
      : PutOf store e true

/-- What a record puts, it puts in one of these ways. -/
theorem recordPut_putOf {pkt : List Byte} {record : Nat} {store : Store Bool (Prefix × Mapnode)}
    {e : Prefix × Mapnode} {more : Bool} (own : Keyed store)
    (put : recordPut pkt record store = (some e, more))
    : PutOf store e more := by
  unfold recordPut at put
  split at put
  · cases (Prod.mk.inj put).1
  · next pfx parsed =>
      have key {node : Mapnode} (put : putFor store pfx node = some e) :=
        putFor_key (own pfx.key) (recordPrefix_copyable parsed) put
      split at put
      · obtain ⟨given, rfl⟩ := Prod.mk.inj put
        obtain ⟨node, denies, given⟩ := Option.bind_eq_some_iff.mp given
        obtain ⟨same, rfl⟩ := key given
        refine .denied (deniedMapnode_state denies) ?_
        rw [same]
        intro old there
        rw [putFor, there] at given
        dsimp only at given
        split at given
        · cases given
        · next movable => exact ⟨movable, (congrArg Prod.fst (Option.some.inj given)).symm⟩
      · split at put
        · next at_ old found =>
            obtain ⟨given, rfl⟩ := Prod.mk.inj put
            obtain ⟨_, stored, _⟩ := LongestPrefix.best_eq_some_iff.mp found
            exact .refreshed ((own _ _ stored).symm ▸ stored) (Option.some.inj given).symm
        · next missed =>
            split at put
            · obtain ⟨given, rfl⟩ := Prod.mk.inj put
              obtain ⟨same, node⟩ := key given
              exact .learned (by rw [node]; rfl) (same ▸ missed)
            · cases (Prod.mk.inj put).1

/-- Entries that are put one after the other, each in one of these ways. -/
inductive PutsOf : Store Bool (Prefix × Mapnode) → List (Prefix × Mapnode) → Prop
  | nil {store : Store Bool (Prefix × Mapnode)} : PutsOf store []
  | cons {store : Store Bool (Prefix × Mapnode)} {e : Prefix × Mapnode} {more : Bool}
      {puts : List (Prefix × Mapnode)} (put : PutOf store e more)
      (rest : PutsOf (LongestPrefix.insert store e.1.key e) puts)
      : PutsOf store (e :: puts)

/-- So the records of a reply put, by induction on them. -/
theorem replyPuts_putsOf {pkt : List Byte} {n record : Nat}
    {store : Store Bool (Prefix × Mapnode)} (own : Keyed store)
    : PutsOf store (replyPuts pkt n record store) := by
  induction n generalizing record store with
  | zero => exact .nil
  | succ n ih =>
      rw [replyPuts]
      cases first : recordPut pkt record store with
      | mk put more =>
          have rest {store' : Store Bool (Prefix × Mapnode)} (own' : Keyed store')
              : PutsOf store'
                  (if more then replyPuts pkt n (recordEnd pkt record) store' else []) := by
            split
            · exact ih own'
            · exact .nil
          cases put with
          | none => exact rest own
          | some e => exact .cons (recordPut_putOf own first) (rest (own.insert e))

-----------------------------------------------------------------------------------------
-- The parsers put just that
-----------------------------------------------------------------------------------------

section

variable {pkt : List Byte} {record next : Nat} {lisp lisp' : Lisp} {more : Bool}

/-- `update_mapnode` puts what the store of entries tells. -/
theorem updateMapnode_store {table after : Maptable} {pfx : Prefix} {node : Mapnode}
    {stored : Bool} (ok : TableOk table) (storable : pfx.Storable)
    (done : updateMapnode table pfx node = .ok (after, stored))
    : after.store = putAll table.store (putFor table.store pfx node).toList := by
  obtain ⟨_, updated⟩ := updateMapnode_spec ok storable done
  cases updated with
  | refused there static same =>
      rw [putFor, there, same]
      simp only [static, if_true]
      rfl
  | orphaned unknown absent same =>
      rw [putFor, absent, same]
      simp only [unknown]
      rfl
  | @stored kept stores replaces =>
      have put : putFor table.store pfx node = some (kept, node) := by
        rw [putFor]
        cases there : table.store pfx.key with
        | none => simp only [stores.new there, Option.map_some]
        | some old => simp only [if_neg (replaces old there), stores.old old there]
      rw [put]
      change _ = LongestPrefix.insert table.store kept.key (kept, node)
      rw [stores.key]
      exact stores.store

/-- `update_mapnode` with what a record has it store puts just that. -/
theorem updateMapnode_behind {table after : Maptable} {pfx : Prefix} {node : Mapnode}
    {stored : Bool} (ok : TableOk table) (parsed : recordPrefix pkt record = .ok pfx)
    (update : recordUpdate pkt record table.store = some (pfx, node))
    (put : (recordPut pkt record table.store).1 = putFor table.store pfx node)
    (done : updateMapnode table pfx node = .ok (after, stored))
    : after.outline = table.outline.behind pkt record := by
  have storable := (recordPrefix_eq_ok.mp parsed).2.storable (updateMapnode_short ok done)
  refine Outline.ext ?_ ?_
  · change after.store = putAll table.store (recordPut pkt record table.store).1.toList
    rw [put]
    exact updateMapnode_store ok storable done
  · change _ = (recordStray pkt record table.store).or table.outline.stray
    rw [updateMapnode_stray ok storable done, recordStray, update, Option.bind_some]
    split <;> rfl

/-- A record that puts nothing and has nothing stored leaves the table. -/
theorem behind_of_idle {o : Outline Mapnode} (put : (recordPut pkt record o.store).1 = none)
    (update : recordUpdate pkt record o.store = none)
    : o.behind pkt record = o := by
  refine Outline.ext ?_ ?_
  · change putAll o.store (recordPut pkt record o.store).1.toList = o.store
    rw [put]
    rfl
  · change (recordStray pkt record o.store).or o.stray = o.stray
    rw [recordStray, update]
    rfl

/-- A record leaves what `behind` tells, and the loop goes on as `recordPut` tells. -/
theorem RecordEffect.outline (h : RecordEffect pkt record lisp lisp' more) (ok : TableOk lisp.rib)
    : lisp'.rib.outline = lisp.rib.outline.behind pkt record
      ∧ (recordPut pkt record lisp.rib.store).2 = more := by
  have idle {pfx : Prefix} (empty : recordLocatorCount pkt record = 0)
      (parsed : recordPrefix pkt record = .ok pfx)
      (none : deniedMapnode (recordAct pkt record) = none)
      : lisp.rib.outline = lisp.rib.outline.behind pkt record
        ∧ (recordPut pkt record lisp.rib.store).2 = true := by
    refine ⟨(behind_of_idle ?_ ?_).symm, ?_⟩
    · simp only [recordPut, parsed, if_pos empty, none, Option.bind_none]
    · simp only [recordUpdate, parsed, if_pos empty, none, Option.map_none]
    · simp only [recordPut, parsed, if_pos empty]
  cases h with
  | ignored empty act parsed =>
      exact idle empty parsed (deniedMapnode_eq_none.mpr (by omega))
  | asked empty act parsed =>
      exact idle empty parsed (deniedMapnode_eq_none.mpr (by omega))
  | denied empty act parsed denies update =>
      refine ⟨updateMapnode_behind ok parsed ?_ ?_ update, ?_⟩
      · simp only [recordUpdate, parsed, if_pos empty, denies, Option.map_some]
      · simp only [recordPut, parsed, if_pos empty, denies, Option.bind_some]
      · simp only [recordPut, parsed, if_pos empty]
  | @refreshed pfx pn mn located parsed search =>
      rcases searchMapnode_spec ok (searchMapnode_short ok search)
        with ⟨_, missed⟩ | ⟨e, z, found, hit, holds, locOk, head⟩
      · cases missed.symm.trans search
      · obtain ⟨rfl, rfl⟩ := Prod.mk.inj (Option.some.inj (Except.ok.inj (hit.symm.trans search)))
        have put : recordPut pkt record lisp.rib.store
            = (some (e.1, { e.2 with ttl := mapttlDefault }), false) := by
          simp only [recordPut, parsed, if_neg located, found]
        refine ⟨Outline.ext ?_ ?_, by rw [put]⟩
        · change _ = putAll lisp.rib.store (recordPut pkt record lisp.rib.store).1.toList
          rw [put]
          exact (write_spec ok holds locOk head { e.2 with ttl := mapttlDefault }).2.1
        · change _ = (recordStray pkt record lisp.rib.store).or lisp.rib.outline.stray
          have update : recordUpdate pkt record lisp.rib.store = none := by
            simp only [recordUpdate, parsed, if_neg located, found]
          rw [recordStray, update]
          exact write_stray holds locOk head _
  | @learned pfx recordTtl locator rib stored located parsed search ttl selected update =>
      rcases searchMapnode_spec ok (updateMapnode_short ok update)
        with ⟨missed, _⟩ | ⟨_, _, _, hit, _⟩
      · rw [learned_rib]
        refine ⟨updateMapnode_behind ok parsed ?_ ?_ update, ?_⟩
        · simp only [recordUpdate, parsed, if_neg located, missed, ttl, selected]
        · simp only [recordPut, parsed, if_neg located, missed, ttl, selected]
        · simp only [recordPut, parsed, if_neg located, missed, ttl, selected]
      · cases hit.symm.trans search

/-- So does a record that is processed. -/
theorem mapReplyRecord_outline (ok : TableOk lisp.rib)
    (done : mapReplyRecord pkt record lisp = .ok (lisp', next, more))
    : lisp'.rib.outline = lisp.rib.outline.behind pkt record
      ∧ (recordPut pkt record lisp.rib.store).2 = more :=
  (mapReplyRecord_effect done).2.outline ok

/-- It puts what `recordPut` tells. -/
theorem mapReplyRecord_store (ok : TableOk lisp.rib)
    (done : mapReplyRecord pkt record lisp = .ok (lisp', next, more))
    : lisp'.rib.store = putAll lisp.rib.store (recordPut pkt record lisp.rib.store).1.toList :=
  congrArg Outline.store (mapReplyRecord_outline ok done).1

/-- The record loop leaves what `behindAll` tells, by induction on the records. -/
theorem mapReplyRecords_outline {n : Nat} (ok : TableOk lisp.rib)
    (done : mapReplyRecords pkt n record lisp = .ok (lisp', next))
    : lisp'.rib.outline = lisp.rib.outline.behindAll pkt n record := by
  induction n generalizing record lisp with
  | zero =>
      obtain ⟨rfl, _⟩ := Prod.mk.inj (Except.ok.inj done)
      rfl
  | succ n ih =>
      obtain ⟨⟨middle, off, more⟩, first, rest⟩ := bind_eq_ok.mp done
      obtain ⟨rfl, effect⟩ := mapReplyRecord_effect first
      obtain ⟨outline, goesOn⟩ := effect.outline ok
      change _ = if (recordPut pkt record lisp.rib.store).2 then _ else _
      rw [goesOn, ← outline]
      cases more with
      | true => exact ih (effect.writes ok).1 rest
      | false =>
          obtain ⟨rfl, _⟩ := Prod.mk.inj (pure_eq_ok.mp rest)
          rfl

/-- Behind the records stands what they put, in order. -/
theorem behindAll_store (pkt : List Byte) (n record : Nat) (o : Outline Mapnode)
    : (o.behindAll pkt n record).store = putAll o.store (replyPuts pkt n record o.store) := by
  induction n generalizing record o with
  | zero => rfl
  | succ n ih =>
      rw [Outline.behindAll, replyPuts]
      split
      · rw [ih, putAll_append]
        rfl
      · rw [List.append_nil]
        rfl

/-- And the last mapnode that they leave without a prefix, or else the one there. -/
theorem behindAll_stray (pkt : List Byte) (n record : Nat) (o : Outline Mapnode)
    : (o.behindAll pkt n record).stray = (replyStrays pkt n record o.store).getLast?.or o.stray := by
  induction n generalizing record o with
  | zero => rfl
  | succ n ih =>
      rw [Outline.behindAll, replyStrays]
      split
      · rw [ih, List.getLast?_append, Option.or_assoc]
        cases h : recordStray pkt record o.store <;> simp [Outline.behind, h]
      · cases h : recordStray pkt record o.store <;> simp [Outline.behind, h]

/-- The record loop puts what `replyPuts` tells. -/
theorem mapReplyRecords_store {n : Nat} (ok : TableOk lisp.rib)
    (done : mapReplyRecords pkt n record lisp = .ok (lisp', next))
    : lisp'.rib.store = putAll lisp.rib.store (replyPuts pkt n record lisp.rib.store) :=
  (congrArg Outline.store (mapReplyRecords_outline ok done)).trans (behindAll_store _ _ _ _)

/-- No record has a Map-Reply sent. -/
theorem RecordEffect.mapReplies (h : RecordEffect pkt record lisp lisp' more)
    : lisp'.mapReplies = lisp.mapReplies := by
  cases h with
  | ignored _ _ _ => rfl
  | denied _ _ _ _ _ => rfl
  | asked _ _ _ => rfl
  | refreshed _ _ _ => rfl
  | learned _ _ _ _ _ _ =>
      split
      · unfold addRouteToTun
        split <;> rfl
      · rfl

/-- No record counts: `update_mapnode` leaves the count of the table. -/
theorem RecordEffect.count (h : RecordEffect pkt record lisp lisp' more)
    : lisp'.rib.count = lisp.rib.count := by
  have kept {pfx : Prefix} {node : Mapnode} {rib : Maptable} {stored : Bool}
      (update : updateMapnode lisp.rib pfx node = .ok (rib, stored))
      : rib.count = lisp.rib.count := by
    obtain ⟨tree, pn, _, ⟨_, _, _, rfl, _⟩ | ⟨_, rfl, _⟩⟩ := updateMapnode_cases update
    · rfl
    · rfl
  cases h with
  | ignored _ _ _ => rfl
  | denied _ _ _ _ update => exact kept update
  | asked _ _ _ => rfl
  | refreshed _ _ _ => rfl
  | learned _ _ _ _ _ update =>
      rw [learned_rib]
      exact kept update

/-- A Map-Reply has no Map-Reply sent. -/
theorem mapReplyRecords_mapReplies {n : Nat}
    (done : mapReplyRecords pkt n record lisp = .ok (lisp', next))
    : lisp'.mapReplies = lisp.mapReplies :=
  @RecordsGuarded.invariant (fun after => after.mapReplies = lisp.mapReplies) _ _ _ _ _ _ _
    (recordsGuarded_true pkt n record lisp)
    (fun _ _ _ _ _ kept _ done => (mapReplyRecord_effect done).2.mapReplies.trans kept) rfl done

/-- Nor does it change the count of the table. -/
theorem mapReplyRecords_count {n : Nat}
    (done : mapReplyRecords pkt n record lisp = .ok (lisp', next))
    : lisp'.rib.count = lisp.rib.count :=
  @RecordsGuarded.invariant (fun after => after.rib.count = lisp.rib.count) _ _ _ _ _ _ _
    (recordsGuarded_true pkt n record lisp)
    (fun _ _ _ _ _ kept _ done => (mapReplyRecord_effect done).2.count.trans kept) rfl done

end

end Lixy
