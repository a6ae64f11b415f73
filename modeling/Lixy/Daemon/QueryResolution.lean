import Lixy.Daemon.ValidEvents

/-! Queried destinations and the replies for them: a positive record makes a destination
reachable exactly when nothing but an ACTIVE entry matched it before, and no record behind it
denies the destination as specifically.
-/

namespace Lixy

open ByteStrings
open LongestPrefix (Store best)
open EventRuns (run Reachable)

/-- `search_mapnode` finds an ACTIVE entry: packets are encapsulated. -/
def FindsActive (lisp : Lisp) (d : Prefix) : Prop :=
  ∃ pn mn, searchMapnode lisp.rib d = .ok (some (pn, mn)) ∧ mn.state = .active

/-- A STATIC entry covers `d`, or a NEGATIVE or DROP entry more specific than `p` does. -/
def Overruled (lisp : Lisp) (p d : Prefix) : Prop :=
  ∃ e ∈ lisp.rib.entries, e.1.Covers d
    ∧ (e.2.state = .static
      ∨ (e.2.state = .negative ∨ e.2.state = .drop) ∧ p.bitlen < e.1.bitlen)

/-- The QUERIED entry that `lisp_raw_packet_thread` installed for `d` is in the table. -/
def Queried (lisp : Lisp) (d : Prefix) : Prop :=
  ∃ e ∈ lisp.rib.entries, e.1.key = d.key ∧ e.2.state = .queried

-----------------------------------------------------------------------------------------
-- Searches as best matches
-----------------------------------------------------------------------------------------

/-- An ACTIVE entry matches best. -/
def MatchesActive (store : Store Bool (Prefix × Mapnode)) (query : List Bool) : Prop :=
  ∃ key e, best store query = some (key, e) ∧ e.2.state = .active

section

variable {lisp : Lisp} {d : Prefix}

/-- An ACTIVE entry is found when it is the best match. -/
theorem findsActive_iff (ok : TableOk lisp.rib) (short : d.bitlen ≤ 128)
    : FindsActive lisp d ↔ MatchesActive lisp.rib.store d.key := by
  rcases searchMapnode_spec ok short with ⟨none, search⟩ | ⟨e, z, found, search, _⟩
  · simp [FindsActive, MatchesActive, search, none]
  · simp only [FindsActive, MatchesActive, search, found, Except.ok.injEq, Option.some.injEq,
      Prod.mk.injEq]
    constructor
    · rintro ⟨_, _, ⟨rfl, rfl⟩, active⟩
      exact ⟨_, e, ⟨rfl, rfl⟩, active⟩
    · rintro ⟨_, _, ⟨rfl, rfl⟩, active⟩
      exact ⟨_, _, ⟨rfl, rfl⟩, active⟩

end

-----------------------------------------------------------------------------------------
-- What a reply leaves to be found
-----------------------------------------------------------------------------------------

/-- One of the entries denies a prefix of the destination that has at least `n` bits. -/
def DeniedFrom (puts : List (Prefix × Mapnode)) (d : Prefix) (n : Nat) : Prop :=
  ∃ e ∈ puts, Denies e ∧ e.1.key <+: d.key ∧ n ≤ e.1.bitlen

/-- One of the entries is more specific than `p`, denies and covers `d`. -/
def OverrulingPut (puts : List (Prefix × Mapnode)) (p d : Prefix) : Prop :=
  ∃ e ∈ puts, Denies e ∧ e.1.Covers d ∧ p.bitlen < e.1.bitlen

/-- With the entries put, an ACTIVE one matches `d` best: nothing or an ACTIVE entry matched it
before, and nothing that is put denies it at as many bits.
-/
def Resolves (store : Store Bool (Prefix × Mapnode)) (puts : List (Prefix × Mapnode))
    (p d : Prefix)
    : Prop :=
  match best store d.key with
  | none => ¬ DeniedFrom puts d p.bitlen
  | some (key, e) => e.2.state = .active ∧ ¬ DeniedFrom puts d key.length

section

variable {store : Store Bool (Prefix × Mapnode)} {p d : Prefix} {e : Prefix × Mapnode}
  {puts : List (Prefix × Mapnode)} {more : Bool} {n : Nat}

theorem deniedFrom_cons
    : DeniedFrom (e :: puts) d n
      ↔ (Denies e ∧ e.1.key <+: d.key ∧ n ≤ e.1.bitlen) ∨ DeniedFrom puts d n := by
  simp only [DeniedFrom, List.mem_cons, exists_eq_or_imp]

/-- What a put does to a best match: an entry that denies and has at least as many bits takes
its place, and any other leaves an entry of its key and state.
-/
theorem PutOf.best_insert {found : Prefix × Mapnode} {key : List Bool} (put : PutOf store e more)
    (before : best store d.key = some (key, found))
    : (∃ found', best (LongestPrefix.insert store e.1.key e) d.key = some (key, found')
          ∧ found'.2.state = found.2.state
          ∧ (Denies e → e.1.key <+: d.key → key.length ≤ e.1.bitlen → ¬ found.2.state = .active))
      ∨ best (LongestPrefix.insert store e.1.key e) d.key = some (e.1.key, e)
        ∧ Denies e ∧ e.1.key <+: d.key ∧ key.length ≤ e.1.bitlen := by
  obtain ⟨above, stored, longest⟩ := LongestPrefix.best_eq_some_iff.mp before
  by_cases covers : e.1.key <+: d.key
  · rcases Nat.lt_or_ge e.1.key.length key.length with longer | short
    · refine .inl ⟨found, LongestPrefix.best_insert_of_longer e before longer, rfl, ?_⟩
      intro _ _ le
      rw [Prefix.key_length] at longer
      omega
    · have takes : best (LongestPrefix.insert store e.1.key e) d.key = some (e.1.key, e) := by
        refine LongestPrefix.best_insert_of_covers e covers fun other v again => ?_
        obtain ⟨rfl, _⟩ := Prod.mk.inj (Option.some.inj (before.symm.trans again))
        exact short
      cases put with
      | @refreshed old there put =>
          have own : e.1.key = old.1.key := by rw [put]
          have le := longest e.1.key covers (by simp [own, there])
          obtain rfl := LongestPrefix.eq_of_covers covers above (Nat.le_antisymm le short)
          obtain rfl : old = found := Option.some.inj (there.symm.trans (own ▸ stored))
          refine .inl ⟨e, takes, by rw [put], ?_⟩
          rintro (denies | denies) _ _ active
          · rw [put, active] at denies
            cases denies
          · rw [put, active] at denies
            cases denies
      | denied denies _ =>
          exact .inr ⟨takes, denies, covers, by rwa [Prefix.key_length] at short⟩
      | learned _ missed => cases missed.symm.trans (LongestPrefix.best_of_covers covers before short)
  · refine .inl ⟨found, ?_, rfl, fun _ below => absurd below covers⟩
    rw [LongestPrefix.best_insert_of_not_covers store e covers, before]

theorem matchesActive_of_best {query key : List Bool} {found : Prefix × Mapnode}
    (matched : best store query = some (key, found))
    : MatchesActive store query ↔ found.2.state = .active := by
  constructor
  · rintro ⟨_, _, again, active⟩
    obtain ⟨_, rfl⟩ := Prod.mk.inj (Option.some.inj (matched.symm.trans again))
    exact active
  · exact fun active => ⟨key, found, matched, active⟩

/-- What denies is not ACTIVE. -/
theorem Denies.not_active (denies : Denies e) : ¬ e.2.state = .active := by
  intro active
  rw [Denies, active] at denies
  rcases denies with denies | denies <;> cases denies

theorem not_deniedFrom_nil : ¬ DeniedFrom [] d n := by
  rintro ⟨_, mem, _⟩
  cases mem

/-- Behind the puts an ACTIVE entry matches `d` best exactly when one did before and none of
them denies `d` at as many bits. By induction on the puts.
-/
theorem PutsOf.matchesActive_iff {found : Prefix × Mapnode} {key : List Bool}
    (h : PutsOf store puts) (before : best store d.key = some (key, found))
    : MatchesActive (putAll store puts) d.key
      ↔ found.2.state = .active ∧ ¬ DeniedFrom puts d key.length := by
  induction h generalizing found key with
  | nil => exact (matchesActive_of_best before).trans (and_iff_left not_deniedFrom_nil).symm
  | @cons store e more puts put rest ih =>
      rcases put.best_insert before with ⟨found', after, state, harmless⟩
        | ⟨after, denies, covers, le⟩
      · refine (ih after).trans ?_
        rw [state, deniedFrom_cons, not_or]
        refine and_congr_right fun active => (and_iff_right ?_).symm
        exact fun ⟨denies, covers, le⟩ => harmless denies covers le active
      · refine iff_of_false (fun matched => ?_) (fun clear => clear.2 ?_)
        · exact denies.not_active ((ih after).mp matched).1
        · exact ⟨e, List.mem_cons_self, denies, covers, le⟩

/-- Where the first record learns `p` or refreshes what covers it, the puts resolve `d` exactly
when `Resolves` says so.
-/
theorem replyPuts_resolves_iff {pkt : List Byte} {record : Nat} {o : Outline Mapnode}
    (own : Keyed o.store) (returns : RecordReturns pkt record o)
    (located : recordLocatorCount pkt record ≠ 0) (parsed : recordPrefix pkt record = .ok p)
    (valid : p.Valid) (covers : p.key <+: d.key)
    : MatchesActive (putAll o.store (replyPuts pkt (n + 1) record o.store)) d.key
      ↔ Resolves o.store (replyPuts pkt (n + 1) record o.store) p d := by
  cases before : best o.store d.key with
  | some hit =>
      rw [(replyPuts_putsOf own).matchesActive_iff before]
      simp only [Resolves, before]
  | none =>
      have nothing := LongestPrefix.best_eq_none_iff.mp before
      have missed : best o.store p.key = none :=
        LongestPrefix.best_eq_none_iff.mpr fun key above => nothing key (above.trans covers)
      obtain ⟨copy, copies⟩ := Option.isSome_iff_exists.mp (refPrefix_isSome valid.family)
      obtain ⟨_, bits, key⟩ := refPrefix_eq_some copies valid.copyable
      obtain ⟨recordTtl, ttl⟩ : ∃ recordTtl, rd32 pkt record = .ok recordTtl := by
        have := returns.address
        exact rd32_total (by omega)
      obtain ⟨locator, selected⟩ :=
        lispLocatorPktToLocator_total (returns.selected p parsed located missed)
      let e : Prefix × Mapnode := (copy, learnedMapnode recordTtl locator)
      have put : recordPut pkt record o.store = (some e, true) := by
        simp only [recordPut, parsed, if_neg located, missed, ttl, selected, putFor,
          nothing p.key covers, copies, Option.map_some, e]
      have after : best (LongestPrefix.insert o.store e.1.key e) d.key = some (e.1.key, e) :=
        LongestPrefix.best_insert_of_covers e (key.symm ▸ covers) (by simp [before])
      have active : ¬ Denies e := fun denies => denies.not_active rfl
      have rest := @replyPuts_putsOf pkt n (recordEnd pkt record) _ (own.insert e)
      simp only [Resolves, before, replyPuts, put, Option.toList_some, List.singleton_append,
        if_true, deniedFrom_cons, active, false_and, false_or]
      refine (rest.matchesActive_iff after).trans ?_
      rw [and_iff_right (show e.2.state = .active from rfl), Prefix.key_length,
        show e.1.bitlen = p.bitlen from bits]
      rfl

/-- A STATIC entry covers `d`, or one more specific than `p` that denies. -/
def OverruledIn (store : Store Bool (Prefix × Mapnode)) (p d : Prefix) : Prop :=
  ∃ e, store e.1.key = some e ∧ e.1.Covers d
    ∧ (e.2.state = .static ∨ Denies e ∧ p.bitlen < e.1.bitlen)

theorem overruled_iff {lisp : Lisp} (ok : TableOk lisp.rib)
    : Overruled lisp p d ↔ OverruledIn lisp.rib.store p d := by
  refine exists_congr fun e => and_congr_left fun _ => ?_
  rw [ok.store_eq_some_iff]
  exact (and_iff_left rfl).symm

/-- A put overrules what it did not before only by denying it. -/
theorem PutOf.overruledIn_iff (put : PutOf store e more)
    : OverruledIn (LongestPrefix.insert store e.1.key e) p d
      ↔ (Denies e ∧ e.1.Covers d ∧ p.bitlen < e.1.bitlen) ∨ OverruledIn store p d := by
  have here : LongestPrefix.insert store e.1.key e e.1.key = some e :=
    LongestPrefix.insert_self _ _ _
  constructor
  · rintro ⟨other, stored, covers, why⟩
    by_cases same : other.1.key = e.1.key
    · rw [same, here] at stored
      obtain rfl := Option.some.inj stored
      cases put with
      | @refreshed old there put =>
          subst put
          exact .inr ⟨old, there, covers, why⟩
      | denied denies _ =>
          rcases why with static | ⟨_, longer⟩
          · rw [Denies, static] at denies
            rcases denies with denies | denies <;> cases denies
          · exact .inl ⟨denies, covers, longer⟩
      | learned active _ =>
          rcases why with static | ⟨denies, _⟩
          · cases static.symm.trans active
          · exact absurd active denies.not_active
    · rw [LongestPrefix.insert_of_ne _ _ same] at stored
      exact .inr ⟨other, stored, covers, why⟩
  · rintro (⟨denies, covers, longer⟩ | ⟨other, there, covers, why⟩)
    · exact ⟨e, here, covers, .inr ⟨denies, longer⟩⟩
    · by_cases same : other.1.key = e.1.key
      · rw [same] at there
        cases put with
        | @refreshed old there' put =>
            subst put
            obtain rfl := Option.some.inj (there'.symm.trans there)
            exact ⟨_, here, covers, why⟩
        | denied denies replaces =>
            obtain ⟨movable, own⟩ := replaces other there
            rw [← own] at covers why
            rcases why with static | ⟨_, longer⟩
            · exact absurd static movable
            · exact ⟨e, here, covers, .inr ⟨denies, longer⟩⟩
        | learned _ missed =>
            cases there.symm.trans (LongestPrefix.best_eq_none_iff.mp missed _ List.prefix_rfl)
      · exact ⟨other, (LongestPrefix.insert_of_ne _ _ same).trans there, covers, why⟩

/-- So do puts one after the other. -/
theorem PutsOf.overruledIn_iff (h : PutsOf store puts)
    : OverruledIn (putAll store puts) p d ↔ OverrulingPut puts p d ∨ OverruledIn store p d := by
  induction h with
  | nil => exact (or_iff_right (by simp [OverrulingPut])).symm
  | @cons store e more puts put rest ih =>
      refine ih.trans ?_
      rw [put.overruledIn_iff, OverrulingPut, OverrulingPut, List.exists_mem_cons_iff, or_assoc,
        or_left_comm]

end

-----------------------------------------------------------------------------------------
-- A whole reply
-----------------------------------------------------------------------------------------

/-- The host entry of a queried destination, as long as no reply changes it but to deny. -/
def View.Unresolved (v : View) (key : List Bool) : Prop :=
  ∃ e, v.store key = some e
    ∧ (e.2.state = .queried ∨ e.2.state = .negative ∨ e.2.state = .drop)

/-- No record resolves the host entry: it finds that entry, or puts another next to it, or
denies it.
-/
theorem View.Unresolved.record {pkt : List Byte} {record : Nat} {v : View} {w : Writer}
    {key : List Bool} (h : v.Unresolved key) (enabled : w.Enabled v)
    (source : RecordWriter pkt record v w)
    : (w.write v).Unresolved key := by
  obtain ⟨old, stored, state⟩ := id h
  cases w with
  | idle => exact h
  | stray _ => exact h
  | learn p e =>
      obtain ⟨puts, missed, _⟩ := enabled
      refine ⟨old, ?_, state⟩
      rw [Writer.write, View.addRoute_store, View.put_store, LongestPrefix.insert_of_ne, stored]
      rintro rfl
      rw [puts.key] at stored
      cases stored.symm.trans (LongestPrefix.best_eq_none_iff.mp missed _ List.prefix_rfl)
  | refresh e =>
      by_cases here : key = e.1.key
      · subst here
        obtain rfl : old = e := Option.some.inj (stored.symm.trans enabled)
        exact ⟨_, LongestPrefix.insert_self _ _ _, state⟩
      · exact ⟨old, (LongestPrefix.insert_of_ne v.store _ here).trans stored, state⟩
  | deny p e =>
      by_cases here : key = e.1.key
      · subst here
        exact ⟨e, LongestPrefix.insert_self _ _ _, Or.inr enabled.2⟩
      · exact ⟨old, (LongestPrefix.insert_of_ne v.store _ here).trans stored, state⟩
  | query _ _ => exact source.elim
  | pin _ _ => exact source.elim
  | unpin _ _ => exact source.elim
  | age _ => exact source.elim

/-- Records leave a queried destination unresolved. -/
theorem View.Unresolved.records {pkt : List Byte} {n record next : Nat} {lisp lisp' : Lisp}
    {key : List Bool} (h : lisp.view.Unresolved key) (ok : TableOk lisp.rib)
    (done : mapReplyRecords pkt n record lisp = .ok (lisp', next))
    : TableOk lisp'.rib ∧ lisp'.view.Unresolved key := by
  let Inv (lisp : Lisp) : Prop := TableOk lisp.rib ∧ lisp.view.Unresolved key
  have keeps (record : Nat) (before after : Lisp) (next : Nat) (more : Bool) (inv : Inv before)
      (done : mapReplyRecord pkt record before = .ok (after, next, more))
      : Inv after := by
    obtain ⟨ok', w, enabled, view, source⟩ := (mapReplyRecord_effect done).2.writes inv.1
    exact ⟨ok', view ▸ inv.2.record enabled source⟩
  have start : Inv lisp := ⟨ok, h⟩
  exact (recordsGuarded_true pkt n record lisp).invariant
    (fun _ _ _ _ _ inv _ done => keeps _ _ _ _ _ inv done) start done

/-- An unresolved destination is no ACTIVE one. -/
theorem View.Unresolved.not_active {lisp : Lisp} {d : Prefix} (h : lisp.view.Unresolved d.key)
    (ok : TableOk lisp.rib) (short : d.bitlen ≤ 128)
    : ¬ FindsActive lisp d := by
  obtain ⟨e, stored, state⟩ := h
  rw [findsActive_iff ok short]
  rintro ⟨key, e', found, active⟩
  have self : best lisp.rib.store d.key = some (d.key, e) := LongestPrefix.best_self stored
  obtain rfl : e' = e := (Prod.mk.inj (Option.some.inj (found.symm.trans self))).2
  rw [active] at state
  rcases state with state | state | state <;> cases state

theorem Queried.unresolved {lisp : Lisp} {d : Prefix} (h : Queried lisp d)
    (ok : TableOk lisp.rib)
    : lisp.view.Unresolved d.key := by
  obtain ⟨e, mem, key, state⟩ := h
  exact ⟨e, ok.store_eq_some_iff.mpr ⟨mem, key⟩, Or.inl state⟩

-----------------------------------------------------------------------------------------
-- From a record to the end of its reply
-----------------------------------------------------------------------------------------

/-- With `n` records to come from `record` on, the record loop comes to the state in which
those `n'` from `record'` on are left; every one before goes on.
-/
inductive RecordsReach (pkt : List Byte) : Nat → Nat → Lisp → Nat → Nat → Lisp → Prop
  | here {n record : Nat} {lisp : Lisp} : RecordsReach pkt n record lisp n record lisp
  | next {n record next n' record' : Nat} {lisp middle lisp' : Lisp}
      (first : mapReplyRecord pkt record lisp = .ok (middle, next, true))
      (rest : RecordsReach pkt n next middle n' record' lisp')
      : RecordsReach pkt (n + 1) record lisp n' record' lisp'

section

variable {pkt : List Byte} {n record n' record' : Nat} {lisp lisp' : Lisp}

/-- What is left of the loop is what it returns. -/
theorem RecordsReach.records (h : RecordsReach pkt n record lisp n' record' lisp')
    : mapReplyRecords pkt n record lisp = mapReplyRecords pkt n' record' lisp' := by
  induction h with
  | here => rfl
  | next first _ ih =>
      rw [← ih, mapReplyRecords, first]
      rfl

theorem RecordsReach.tableOk (h : RecordsReach pkt n record lisp n' record' lisp')
    (ok : TableOk lisp.rib)
    : TableOk lisp'.rib := by
  induction h with
  | here => exact ok
  | next first _ ih => exact ih ((mapReplyRecord_effect first).2.writes ok).1

/-- A positive record whose prefix covers the destination of a packet, and which comes up in a
Map-Reply on a reachable table. The reply is processed to its end and, where nothing overrules
it then, makes the destination reachable exactly when the records from this one on return, and
something overrules it already or by their puts, or nothing but an ACTIVE entry matched the
destination just before and none of the records behind denies it at as many bits. So never
while the QUERIED entry is there.
Witness: a record is learned only where nothing covers its prefix, and every other record
leaves the best match of the destination in its state, unless it denies.
-/
theorem reply_resolves_iff {frame : RawPacket} {d p : Prefix} {before : Lisp}
    (reachable : Reachable step Lisp.start before) (destination : frame.dstprefix = some d)
    (reached : RecordsReach pkt (byteAt pkt 3).toNat sizeofLispMapReply before (n + 1) record lisp)
    (located : 1 ≤ recordLocatorCount pkt record) (eid : ValidEid pkt record)
    (parsed : recordPrefix pkt record = .ok p) (covers : p.Covers d)
    : ((∃ final last, processLispMapReply pkt before = .ok (final, last)
          ∧ (¬ Overruled final p d → FindsActive final d))
        ↔ RecordsReturn pkt (n + 1) record lisp.rib.outline
          ∧ (Overruled lisp p d
            ∨ OverrulingPut (replyPuts pkt (n + 1) record lisp.rib.store) p d
            ∨ Resolves lisp.rib.store (replyPuts pkt (n + 1) record lisp.rib.store) p d))
      ∧ (Queried before d ∨ Queried lisp d
        → ∀ final last, processLispMapReply pkt before = .ok (final, last)
          → ¬ FindsActive final d) := by
  have short := (RawPacket.dstprefix_valid destination).bitlen_le
  have ok := tableOk_of_reachable reachable
  have okHere := reached.tableOk ok
  have reply {final : Lisp} {last : Nat} : processLispMapReply pkt before = .ok (final, last)
      ↔ mapReplyRecords pkt (n + 1) record lisp = .ok (final, last) := by
    have count : rd pkt 3 = .ok (byteAt pkt 3) := by
      have inside := (recordPrefix_eq_ok.mp parsed).1
      exact rd_eq_ok.mpr ⟨by omega, rfl⟩
    rw [processLispMapReply, count, ← reached.records]
    rfl
  have finds {final : Lisp} {last : Nat} (returns : RecordReturns pkt record lisp.rib.outline)
      (done : mapReplyRecords pkt (n + 1) record lisp = .ok (final, last))
      : (¬ Overruled final p d → FindsActive final d)
        ↔ Overruled lisp p d
          ∨ OverrulingPut (replyPuts pkt (n + 1) record lisp.rib.store) p d
          ∨ Resolves lisp.rib.store (replyPuts pkt (n + 1) record lisp.rib.store) p d := by
    have okFinal := (mapReplyRecords_writes okHere done).1
    have resolves
        : MatchesActive (putAll lisp.rib.store (replyPuts pkt (n + 1) record lisp.rib.store)) d.key
          ↔ Resolves lisp.rib.store (replyPuts pkt (n + 1) record lisp.rib.store) p d :=
      replyPuts_resolves_iff okHere.keyed returns (Nat.ne_of_gt located) parsed
        (eid.prefix_valid parsed) covers.2
    rw [findsActive_iff okFinal short, overruled_iff okFinal, mapReplyRecords_store okHere done,
      (replyPuts_putsOf okHere.keyed).overruledIn_iff, resolves, overruled_iff okHere]
    tauto
  refine ⟨⟨?_, ?_⟩, ?_⟩
  · rintro ⟨final, last, done, effect⟩
    have records := reply.mp done
    have returns := (mapReplyRecords_returns_iff okHere).mp ⟨final, last, records⟩
    exact ⟨returns, (finds returns.1 records).mp effect⟩
  · rintro ⟨returns, condition⟩
    obtain ⟨final, last, records⟩ := (mapReplyRecords_returns_iff okHere).mpr returns
    exact ⟨final, last, reply.mpr records, (finds returns.1 records).mpr condition⟩
  · rintro (queried | queried) final last done
    · obtain ⟨okFinal, unresolved⟩ :=
        (queried.unresolved ok).records ok (processLispMapReply_records done)
      exact unresolved.not_active okFinal short
    · obtain ⟨okFinal, unresolved⟩ :=
        (queried.unresolved okHere).records okHere (reply.mp done)
      exact unresolved.not_active okFinal short

end

/-- A Map-Reply with two records: for 10.0.0.0/8 with one locator, and NATIVE for
10.128.0.0/9.
-/
def tenNineReply : List Byte :=
  [0x28, 0, 0, 2, 0, 0, 0, 0, 0, 0, 0, 0,
    0, 0, 0, 10, 1, 8, 0, 0, 0, 0, 0, 1, 10, 0, 0, 0,
    1, 100, 0, 0, 0, 5, 0, 1, 192, 0, 2, 1,
    0, 0, 0, 10, 0, 9, 0x20, 0, 0, 0, 0, 1, 10, 128, 0, 0]

set_option maxRecDepth 4000 in
/-- 10.0.0.1 is queried, the entry expires, and then the reply comes: it resolves 10.0.0.1. -/
theorem tenNineReply_resolves
    : ∃ d queried lisp final last, tenPacket.dstprefix = some d
        ∧ run step Lisp.start [.packet tenPacket] = .ok queried ∧ Queried queried d
        ∧ run step queried [.sweep] = .ok lisp
        ∧ processLispMapReply tenNineReply lisp = .ok (final, last) ∧ FindsActive final d := by
  have parsed : recordPrefix tenNineReply sizeofLispMapReply = .ok tenPrefix := by decide
  obtain ⟨d, queried, lisp, destination, family, key, asked, ⟨e, mem, host, state⟩, expired,
      nothing, harmless, processed⟩
      : ∃ d queried lisp, tenPacket.dstprefix = some d
        ∧ tenPrefix.family = d.family ∧ tenPrefix.key <+: d.key
        ∧ run step Lisp.start [.packet tenPacket] = .ok queried
        ∧ (∃ e ∈ queried.rib.entries, e.1.key = d.key ∧ e.2.state = .queried)
        ∧ run step queried [.sweep] = .ok lisp
        ∧ (∀ key, lisp.rib.store key = none)
        ∧ (∀ e ∈ replyPuts tenNineReply 2 sizeofLispMapReply lisp.rib.store,
            Denies e → ¬ e.1.key <+: d.key)
        ∧ ∃ lisp' next, mapReplyRecords tenNineReply 2 sizeofLispMapReply lisp = .ok (lisp', next) :=
    ⟨_, _, _, rfl, rfl, by decide, rfl, by decide, rfl, fun _ => rfl, by decide, _, _, rfl⟩
  have reachable : Reachable step Lisp.start lisp :=
    ⟨[.packet tenPacket] ++ [.sweep], EventRuns.run_append_eq_ok.mpr ⟨queried, asked, expired⟩⟩
  have ok := tableOk_of_reachable reachable
  have resolves : Resolves lisp.rib.store
      (replyPuts tenNineReply 2 sizeofLispMapReply lisp.rib.store) tenPrefix d := by
    rw [Resolves, LongestPrefix.best_eq_none_iff.mpr fun key _ => nothing key]
    rintro ⟨e, mem, denies, below, _⟩
    exact harmless e mem denies below
  obtain ⟨final, last, done, finds⟩ := (reply_resolves_iff reachable destination
    (n := 1) .here (by decide) (by decide) parsed ⟨family, key⟩).1.mpr
    ⟨(mapReplyRecords_returns_iff ok).mp processed, .inr (.inr resolves)⟩
  refine ⟨d, queried, lisp, final, last, destination, asked, ⟨e, mem, host, state⟩, expired, done,
    finds ?_⟩
  have records := processLispMapReply_records done
  rw [overruled_iff (mapReplyRecords_writes ok records).1, mapReplyRecords_store ok records]
  refine mt (replyPuts_putsOf ok.keyed).overruledIn_iff.mp ?_
  rintro (⟨e, mem, denies, below, _⟩ | ⟨e, there, _⟩)
  · exact harmless e mem denies below.2
  · cases (nothing _).symm.trans there

/-- A reply for 10.0.0.0/8 leaves the QUERIED entry of 10.0.0.1 to shadow it. -/
theorem tenReply_leaves_queried
    : ¬ ∀ (frame : RawPacket) (d p : Prefix) (pkt : List Byte) (before final : Lisp) (last : Nat),
        Reachable step Lisp.start before → frame.dstprefix = some d → Queried before d
          → ValidReply pkt → byteAt pkt 3 = 1 → 1 ≤ recordLocatorCount pkt sizeofLispMapReply
          → recordPrefix pkt sizeofLispMapReply = .ok p → p.Covers d
          → processLispMapReply pkt before = .ok (final, last) → ¬ Overruled before p d
          → FindsActive final d := by
  intro resolves
  have parsed : recordPrefix tenReply sizeofLispMapReply = .ok tenPrefix := by decide
  obtain ⟨d, before, final, destination, family, key, installed, states, ⟨e, mem, host⟩, whole,
      found⟩
      : ∃ d before final, tenPacket.dstprefix = some d
        ∧ tenPrefix.family = d.family ∧ tenPrefix.key <+: d.key
        ∧ run step Lisp.start [.packet tenPacket] = .ok before
        ∧ (∀ e ∈ before.rib.entries, e.2.state = .queried)
        ∧ (∃ e ∈ before.rib.entries, e.1.key = d.key)
        ∧ processLispMapReply tenReply before = .ok (final, 40)
        ∧ (∀ pn mn, searchMapnode final.rib d = .ok (some (pn, mn)) → mn.state = .queried) := by
    refine ⟨_, _, _, rfl, rfl, by decide, rfl, by decide, by decide, rfl, ?_⟩
    rintro pn mn ⟨⟩
    rfl
  have kept : ¬ Overruled before tenPrefix d := by
    rintro ⟨e, mem, _, overruling⟩
    rw [states e mem] at overruling
    rcases overruling with state | ⟨state | state, _⟩ <;> cases state
  obtain ⟨pn, mn, search, state⟩ := resolves tenPacket d tenPrefix tenReply before final 40
    ⟨_, installed⟩ destination ⟨e, mem, host, states e mem⟩ (by decide) rfl (by decide) parsed
    ⟨family, key⟩ whole kept
  rw [found pn mn search] at state
  cases state

end Lixy
