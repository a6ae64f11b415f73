import Lixy.Foundation.EventRuns
import Lixy.MapTable.Writers

/-! Runs of `update_mapnode` and `delete_mapnode` on a table of their own: a search finds the
longest stored prefix, a deletion removes the longest one too, and nothing ever counts up.
-/

namespace Lixy

open ByteStrings
open LongestPrefix (best)
open EventRuns (run)

-----------------------------------------------------------------------------------------
-- Calls
-----------------------------------------------------------------------------------------

/-- A call that changes a table. -/
inductive TableCall
  | update (pfx : Prefix) (node : Mapnode)
  | delete (pfx : Prefix)

/-- The prefix a call is given. -/
def TableCall.pfx : TableCall → Prefix
  | update pfx _ => pfx
  | delete pfx => pfx

/-- The table after a call. -/
def tableStep (table : Maptable) : TableCall → Except Fault Maptable
  | .update pfx node => do
      let (table, _) ← updateMapnode table pfx node
      return table
  | .delete pfx => do
      let (table, _) ← deleteMapnode table pfx
      return table

/-- A prefix as the callers of the table build it: of a family that has a copy, no longer than
an address of the tree, and zeroed where its length reaches past an IPv4 address.
-/
structure Prefix.Storing (pfx : Prefix) : Prop where
  storable : pfx.Storable
  copies : (refPrefix pfx).isSome

/-- What a call needs of its prefix. -/
def TableCall.Fits : TableCall → Prop
  | update pfx _ => pfx.Storing
  | delete pfx => pfx.bitlen ≤ 128

/-- A table in order, with every mapnode under a prefix. -/
abbrev Tidy (table : Maptable) : Prop := TableOk table ∧ table.NoOrphans

theorem Prefix.Valid.storing {pfx : Prefix} (valid : pfx.Valid) : pfx.Storing :=
  ⟨valid.storable, refPrefix_isSome valid.family⟩

theorem TableCall.fits (c : TableCall) (valid : c.pfx.Valid) : c.Fits := by
  cases c with
  | update pfx node => exact valid.storing
  | delete pfx => exact valid.bitlen_le

/-- Storing under the prefix keeps a table tidy. -/
theorem Tidy.update {table : Maptable} {pfx : Prefix} (tidy : Tidy table) (storing : pfx.Storing)
    (node : Mapnode)
    : ∃ after stored, updateMapnode table pfx node = .ok (after, stored)
        ∧ Tidy after ∧ after.count = table.count
        ∧ ((stored = false ∧ after = table
              ∧ ∃ e, table.store pfx.key = some e ∧ e.2.state = .static)
          ∨ ∃ kept, stored = true ∧ Stores table.tree.head after.tree.head pfx node kept
              ∧ ∀ e, table.store pfx.key = some e → e.2.state ≠ .static) := by
  obtain ⟨⟨after, stored⟩, done⟩ := updateMapnode_total tidy.1 tidy.2 storing.storable.short node
  obtain ⟨ok, updated⟩ := updateMapnode_spec tidy.1 storing.storable done
  have clean : after.NoOrphans :=
    (updateMapnode_noOrphans tidy.1 storing.storable tidy.2 done).mpr (.inl storing.copies)
  have count : after.count = table.count := by
    obtain ⟨tree, pn, _, ⟨_, _, _, rfl, _⟩ | ⟨_, rfl, _⟩⟩ := updateMapnode_cases done
    · rfl
    · rfl
  refine ⟨after, stored, done, ⟨ok, clean⟩, count, ?_⟩
  cases updated with
  | refused there static same => exact .inl ⟨rfl, same, _, there, static⟩
  | stored stores replaces => exact .inr ⟨_, rfl, stores, replaces⟩
  | orphaned unknown _ _ =>
      have copies := storing.copies
      rw [unknown] at copies
      cases copies

/-- A deletion returns and removes the entry that matches best. -/
theorem Tidy.delete {table : Maptable} {pfx : Prefix} (tidy : Tidy table)
    (short : pfx.bitlen ≤ 128)
    : (best table.store pfx.key = none ∧ deleteMapnode table pfx = .ok (table, none))
      ∨ ∃ e after, best table.store pfx.key = some (e.1.key, e)
          ∧ deleteMapnode table pfx = .ok (after, some e.2) ∧ Tidy after
          ∧ after.store = LongestPrefix.erase table.store e.1.key := by
  have fits : pfx.bitlen ≤ table.tree.maxbits := tidy.1.maxbits.symm ▸ short
  obtain ⟨⟨after, mn⟩, done⟩ := deleteMapnode_total tidy.1 tidy.2 short
  obtain ⟨ok, clean, removed⟩ := deleteMapnode_spec tidy.1 short done
  rcases patriciaSearchBest_spec tidy.1.wf fits
    with ⟨missed, search⟩ | ⟨e, z, found, search, holds, _, _⟩
  · refine .inl ⟨missed, ?_⟩
    rw [deleteMapnode, search]
    rfl
  · refine .inr ⟨e, after, found, ?_, ⟨ok, clean tidy.2⟩, ?_⟩
    · rw [done]
      obtain ⟨_, hit, done⟩ := bind_eq_ok.mp done
      obtain rfl := Except.ok.inj (search.symm.trans hit)
      obtain ⟨tree, _, done⟩ := bind_eq_ok.mp done
      obtain ⟨_, rfl⟩ := Prod.mk.inj (pure_eq_ok.mp done)
      rw [holds.data]
    · rcases removed with ⟨missed, _⟩ | ⟨e', found', store⟩
      · cases missed.symm.trans found
      · obtain ⟨_, rfl⟩ := Prod.mk.inj (Option.some.inj (found'.symm.trans found))
        exact store

/-- Every fitting call returns and keeps a table tidy. It stores a mapnode under its prefix's
key, erases a key, or leaves the entries as they are.
-/
theorem Tidy.step {table : Maptable} {c : TableCall} (tidy : Tidy table) (fits : c.Fits)
    : ∃ after, tableStep table c = .ok after ∧ Tidy after
        ∧ (after.store = table.store
          ∨ (∃ node kept, c = .update c.pfx node
              ∧ Stores table.tree.head after.tree.head c.pfx node kept)
          ∨ ∃ key, after.store = LongestPrefix.erase table.store key) := by
  cases c with
  | update pfx node =>
      obtain ⟨after, stored, done, tidy', _, ⟨_, rfl, _⟩ | ⟨kept, _, stores, _⟩⟩ :=
        tidy.update fits node
      · exact ⟨after, by rw [tableStep, done]; rfl, tidy', .inl rfl⟩
      · exact ⟨after, by rw [tableStep, done]; rfl, tidy', .inr (.inl ⟨node, kept, rfl, stores⟩)⟩
  | delete pfx =>
      rcases tidy.delete fits with ⟨_, done⟩ | ⟨e, after, _, done, tidy', store⟩
      · exact ⟨table, by rw [tableStep, done]; rfl, tidy, .inl rfl⟩
      · exact ⟨after, by rw [tableStep, done]; rfl, tidy', .inr (.inr ⟨_, store⟩)⟩

theorem tidy_createMaptable : Tidy createMaptable := ⟨tableOk_createMaptable, nofun⟩

/-- Fitting calls all return, from an empty table on. -/
theorem run_tidy {calls : List TableCall} (fits : ∀ c ∈ calls, c.Fits)
    : ∃ table, run tableStep createMaptable calls = .ok table ∧ Tidy table :=
  (EventRuns.guarded_of_forall fits createMaptable).progress
    (fun _ _ tidy fits =>
      let ⟨after, done, tidy', _⟩ := tidy.step fits
      ⟨after, done, tidy'⟩)
    tidy_createMaptable

-----------------------------------------------------------------------------------------
-- Longest-prefix match
-----------------------------------------------------------------------------------------

/-- The entry is stored at exactly the prefix: same family, length and leading bits. -/
def StoredAt (e : Prefix × Mapnode) (pfx : Prefix) : Prop :=
  e.1.family = pfx.family ∧ e.1.key = pfx.key

/-- What `search_mapnode` returns a pointer to. -/
def searchedMapnode (table : Maptable) (pfx : Prefix) : Except Fault (Option Mapnode) := do
  let found ← searchMapnode table pfx
  return found.map Prod.snd

/-- A tidy table of prefixes of one family. -/
structure OfFamily (family : Nat) (table : Maptable) : Prop where
  tidy : Tidy table
  entries : ∀ e ∈ table.entries, e.1.family = family

section

variable {table : Maptable} {family : Nat} {pfx query : Prefix}

/-- A search returns the mapnode of the best match. -/
theorem searchedMapnode_eq (ok : TableOk table) (short : pfx.bitlen ≤ 128)
    : searchedMapnode table pfx = .ok ((best table.store pfx.key).map fun e => e.2.2) := by
  rcases searchMapnode_spec ok short with ⟨missed, search⟩ | ⟨e, z, found, search, _⟩
  · rw [searchedMapnode, search, missed]
    rfl
  · rw [searchedMapnode, search, found]
    rfl

/-- What is stored for a prefix of the family, with an entry of the family in its place or none,
is of the family.
-/
theorem Stores.kept_family {before after : PatriciaNode Mapnode} {node : Mapnode} {kept : Prefix}
    (stores : Stores before after pfx node kept) (storing : pfx.Storing)
    (own : pfx.family = family) (old : ∀ e, before.store pfx.key = some e → e.1.family = family)
    : kept.family = family := by
  cases there : before.store pfx.key with
  | none =>
      have copied := refPrefix_eq_some (stores.new there) storing.storable.copyable
      exact copied.1.trans own
  | some e => exact stores.old e there ▸ old e there

/-- A call for a prefix of the family keeps a table of that family. -/
theorem OfFamily.step {c : TableCall} (inv : OfFamily family table) (fits : c.Fits)
    (own : c.pfx.family = family)
    : ∃ after, tableStep table c = .ok after ∧ OfFamily family after := by
  obtain ⟨after, done, tidy, effect⟩ := inv.tidy.step fits
  have old {key : List Bool} {e : Prefix × Mapnode} (there : table.store key = some e)
      : e.1.family = family :=
    inv.entries e (inv.tidy.1.store_eq_some_iff.mp there).1
  refine ⟨after, done, tidy, fun e mem => ?_⟩
  have there := tidy.1.store_self mem
  rcases effect with same | ⟨node, kept, call, stores⟩ | ⟨key, store⟩
  · rw [same] at there
    exact old there
  · have put : after.store = LongestPrefix.insert table.store c.pfx.key (kept, node) := stores.store
    rw [put] at there
    by_cases here : e.1.key = c.pfx.key
    · rw [here, LongestPrefix.insert_self] at there
      obtain rfl := Option.some.inj there
      rw [call] at fits
      exact stores.kept_family fits own fun e there => old there
    · rw [LongestPrefix.insert_of_ne _ _ here] at there
      exact old there
  · rw [store] at there
    by_cases here : e.1.key = key
    · rw [here, LongestPrefix.erase_self] at there
      cases there
    · rw [LongestPrefix.erase_of_ne _ here] at there
      exact old there

theorem ofFamily_createMaptable : OfFamily family createMaptable := ⟨tidy_createMaptable, nofun⟩

/-- Calls for prefixes of the family all return, from an empty table on. -/
theorem run_ofFamily {calls : List TableCall}
    (fits : ∀ c ∈ calls, c.Fits ∧ c.pfx.family = family)
    : ∃ table, run tableStep createMaptable calls = .ok table ∧ OfFamily family table :=
  (EventRuns.guarded_of_forall fits createMaptable).progress
    (fun _ _ inv fits => inv.step fits.1 fits.2) ofFamily_createMaptable

/-- After an insertion a query finds the inserted value where its key covers the query and no
longer key does, and else what it found before.
-/
theorem OfFamily.search_insert {after : Maptable} {kept : Prefix} {node : Mapnode}
    (inv : OfFamily family table) (inv' : OfFamily family after)
    (stores : Stores table.tree.head after.tree.head pfx node kept) (own : pfx.family = family)
    (short : query.bitlen ≤ 128) (asked : query.family = family)
    : (pfx.Covers query ∧ (∀ e ∈ after.entries, e.1.Covers query → e.1.bitlen ≤ pfx.bitlen)
        → searchedMapnode after query = .ok (some node))
      ∧ (¬ (pfx.Covers query ∧ ∀ e ∈ after.entries, e.1.Covers query → e.1.bitlen ≤ pfx.bitlen)
        → searchedMapnode after query = searchedMapnode table query) := by
  have put : after.store = LongestPrefix.insert table.store pfx.key (kept, node) := stores.store
  rw [searchedMapnode_eq inv'.tidy.1 short, searchedMapnode_eq inv.tidy.1 short, put]
  constructor
  · rintro ⟨⟨_, covers⟩, longest⟩
    rw [LongestPrefix.best_insert_of_covers _ covers]
    · rfl
    · intro found e hit
      obtain ⟨there, stored, _⟩ := LongestPrefix.best_eq_some_iff.mp hit
      by_cases here : found = pfx.key
      · rw [here]
      · have kept' : after.store found = some e := by
          rw [put, LongestPrefix.insert_of_ne _ _ here, stored]
        obtain ⟨mem, rfl⟩ := inv'.tidy.1.store_eq_some_iff.mp kept'
        rw [Prefix.key_length, Prefix.key_length]
        exact longest e mem ⟨(inv'.entries e mem).trans asked.symm, there⟩
  · intro other
    by_cases covers : pfx.key <+: query.key
    · -- some longer entry covers the query
      have longer : ∃ e ∈ after.entries, e.1.Covers query ∧ pfx.bitlen < e.1.bitlen := by
        by_contra none
        refine other ⟨⟨own.trans asked.symm, covers⟩, fun e mem there => ?_⟩
        exact Nat.not_lt.mp fun lt => none ⟨e, mem, there, lt⟩
      obtain ⟨e, mem, there, lt⟩ := longer
      have ne : e.1.key ≠ pfx.key := by
        intro same
        have length := congrArg List.length same
        rw [Prefix.key_length, Prefix.key_length] at length
        omega
      have stored : table.store e.1.key = some e := by
        have inserted := inv'.tidy.1.store_self mem
        rwa [put, LongestPrefix.insert_of_ne _ _ ne] at inserted
      cases hit : best table.store query.key with
      | none =>
          have missed := LongestPrefix.best_eq_none_iff.mp hit _ there.2
          cases missed.symm.trans stored
      | some found =>
          have longest :=
            (LongestPrefix.best_eq_some_iff.mp hit).longest _ there.2 (by simp [stored])
          rw [LongestPrefix.best_insert_of_longer _ hit]
          rw [Prefix.key_length] at longest ⊢
          omega
    · rw [LongestPrefix.best_insert_of_not_covers _ _ covers]

end

/-- Calls on a table of one family go through. In the table they leave, an update is refused
exactly where a STATIC entry is stored at the prefix, a search finds the longest entry that
covers its prefix, and an update that is not refused changes just the searches that its prefix
covers best.
-/
theorem table_matches_longest {family : Nat} {calls : List TableCall}
    (valid : ∀ c ∈ calls, c.pfx.Valid ∧ c.pfx.family = family)
    : ∃ table, run tableStep createMaptable calls = .ok table
        ∧ (∀ (pfx : Prefix) (node : Mapnode), pfx.Valid → pfx.family = family
          → ∃ after stored, updateMapnode table pfx node = .ok (after, stored)
              ∧ (stored = false
                ↔ ∃ e ∈ table.entries, StoredAt e pfx ∧ e.2.state = .static)
              ∧ (stored = false → after = table)
              ∧ (stored = true → ∀ query : Prefix, query.Valid → query.family = family
                → (pfx.Covers query
                      ∧ (∀ e ∈ after.entries, e.1.Covers query → e.1.bitlen ≤ pfx.bitlen)
                    → searchedMapnode after query = .ok (some node))
                  ∧ (¬ (pfx.Covers query
                        ∧ ∀ e ∈ after.entries, e.1.Covers query → e.1.bitlen ≤ pfx.bitlen)
                    → searchedMapnode after query = searchedMapnode table query)))
        ∧ ∀ query : Prefix, query.Valid → query.family = family
          → (searchedMapnode table query = .ok none ↔ ∀ e ∈ table.entries, ¬ e.1.Covers query) := by
  obtain ⟨table, ran, inv⟩ := run_ofFamily fun c mem => ⟨c.fits (valid c mem).1, (valid c mem).2⟩
  refine ⟨table, ran, fun pfx node valid own => ?_, fun query valid asked => ?_⟩
  · obtain ⟨after, stored, update, _, _, outcome⟩ := inv.tidy.update valid.storing node
    obtain ⟨after', done, inv'⟩ := inv.step (c := .update pfx node) valid.storing own
    obtain rfl : after = after' := by
      rw [tableStep, update] at done
      exact Except.ok.inj done
    refine ⟨after, stored, update, ?_, ?_, ?_⟩
    · constructor
      · intro refused
        rcases outcome with ⟨_, _, e, there, static⟩ | ⟨_, taken, _⟩
        · obtain ⟨mem, key⟩ := inv.tidy.1.store_eq_some_iff.mp there
          exact ⟨e, mem, ⟨(inv.entries e mem).trans own.symm, key⟩, static⟩
        · cases taken.symm.trans refused
      · rintro ⟨e, mem, ⟨_, key⟩, static⟩
        rcases outcome with ⟨refused, _⟩ | ⟨_, _, _, movable⟩
        · exact refused
        · exact absurd static (movable e (inv.tidy.1.store_eq_some_iff.mpr ⟨mem, key⟩))
    · intro refused
      rcases outcome with ⟨_, same, _⟩ | ⟨_, taken, _⟩
      · exact same
      · cases taken.symm.trans refused
    · intro taken query valid asked
      rcases outcome with ⟨refused, _⟩ | ⟨kept, _, stores, _⟩
      · cases refused.symm.trans taken
      · exact inv.search_insert inv' stores own valid.bitlen_le asked
  · rw [searchedMapnode_eq inv.tidy.1 valid.bitlen_le]
    simp only [Except.ok.injEq, Option.map_eq_none_iff, LongestPrefix.best_eq_none_iff]
    constructor
    · rintro missed e mem ⟨_, covers⟩
      cases (missed _ covers).symm.trans (inv.tidy.1.store_self mem)
    · intro none key covers
      cases there : table.store key with
      | none => rfl
      | some e =>
          obtain ⟨mem, rfl⟩ := inv.tidy.1.store_eq_some_iff.mp there
          exact absurd ⟨(inv.entries e mem).trans asked.symm, covers⟩ (none e mem)

/-- The prefix 10.1.0.0/16. -/
def sixteenPrefix : Prefix :=
  { family := afInet, bitlen := 16, refCount := 0, add := setSin (inAddr 10 1 0 0) (zeros 16) }

/-- The prefix 10.1.2.0/24. -/
def subnetPrefix : Prefix :=
  { family := afInet, bitlen := 24, refCount := 0, add := setSin (inAddr 10 1 2 0) (zeros 16) }

/-- The prefix 10.1.2.3/32. -/
def hostPrefix : Prefix :=
  { family := afInet, bitlen := 32, refCount := 0, add := setSin (inAddr 10 1 2 3) (zeros 16) }

/-- Calls that store a shorter and a longer prefix. -/
def nestedCalls : List TableCall := [.update tenPrefix .zero, .update subnetPrefix .zero]

theorem nestedCalls_valid : ∀ c ∈ nestedCalls, c.pfx.Valid ∧ c.pfx.family = afInet :=
  List.forall_mem_cons.mpr ⟨⟨(by decide : tenPrefix.Valid), rfl⟩,
    List.forall_mem_singleton.mpr ⟨(by decide : subnetPrefix.Valid), rfl⟩⟩

/-- Witness: an update between the two. It changes the search for its own prefix, and not the
one that the longer prefix covers.
-/
theorem nestedCalls_match_longest
    : ∃ table after node, run tableStep createMaptable nestedCalls = .ok table
        ∧ node.state = .drop ∧ updateMapnode table sixteenPrefix node = .ok (after, true)
        ∧ searchedMapnode after sixteenPrefix = .ok (some node)
        ∧ searchedMapnode after hostPrefix = searchedMapnode table hostPrefix
        ∧ (searchedMapnode table hostPrefix = .ok none
          ↔ ∀ e ∈ table.entries, ¬ e.1.Covers hostPrefix) := by
  obtain ⟨table, after, ran, update, longest, e, mem, ⟨family, below⟩, length⟩
      : ∃ table after, run tableStep createMaptable nestedCalls = .ok table
        ∧ updateMapnode table sixteenPrefix { Mapnode.zero with state := .drop }
          = .ok (after, true)
        ∧ (∀ e ∈ after.entries, e.1.key <+: sixteenPrefix.key → e.1.bitlen ≤ 16)
        ∧ ∃ e ∈ after.entries, (e.1.family = hostPrefix.family ∧ e.1.key <+: hostPrefix.key)
          ∧ e.1.bitlen = 24 :=
    ⟨_, _, rfl, rfl, by decide, by decide⟩
  obtain ⟨table', ran', updates, searches⟩ := table_matches_longest nestedCalls_valid
  obtain rfl := Except.ok.inj (ran.symm.trans ran')
  obtain ⟨after', stored, update', _, _, changes⟩ :=
    updates sixteenPrefix { Mapnode.zero with state := .drop } (by decide) rfl
  obtain ⟨rfl, rfl⟩ := Prod.mk.inj (Except.ok.inj (update.symm.trans update'))
  refine ⟨table, after, _, ran, rfl, update, ?_, ?_, searches hostPrefix (by decide) rfl⟩
  · exact (changes rfl sixteenPrefix (by decide) rfl).1
      ⟨⟨rfl, List.prefix_rfl⟩, fun e mem covers => longest e mem covers.2⟩
  · refine (changes rfl hostPrefix (by decide) rfl).2 ?_
    rintro ⟨_, shorter⟩
    have le := shorter e mem ⟨family, below⟩
    rw [length] at le
    exact absurd le (by decide)

-----------------------------------------------------------------------------------------
-- Deletions and the counter
-----------------------------------------------------------------------------------------

/-- A deletion returns the mapnode stored at exactly the prefix and removes that entry alone, or
NULL where none is, and then it leaves the table.
-/
def DeletesExactly (table : Maptable) (pfx : Prefix) : Prop :=
  ∃ after mn, deleteMapnode table pfx = .ok (after, mn)
    ∧ (∀ e ∈ table.entries, StoredAt e pfx
      → mn = some e.2 ∧ after.store = LongestPrefix.erase table.store pfx.key)
    ∧ ((∀ e ∈ table.entries, ¬ StoredAt e pfx) → mn = none ∧ after = table)

/-- At every point of a run of calls, the counter is the number of entries. -/
def CountsEntries (calls : List TableCall) : Prop :=
  ∀ before rest table, calls = before ++ rest → run tableStep createMaptable before = .ok table
    → table.count.toNat = table.entries.length

/-- A deletion is exact where an entry is stored at the prefix or nothing covers it. -/
theorem Tidy.deletesExactly_iff {table : Maptable} {pfx : Prefix} (tidy : Tidy table)
    (short : pfx.bitlen ≤ 128)
    : DeletesExactly table pfx
      ↔ (∃ e ∈ table.entries, StoredAt e pfx) ∨ ∀ e ∈ table.entries, ¬ e.1.key <+: pfx.key := by
  rcases tidy.delete short with ⟨missed, done⟩ | ⟨e, after, found, done, _, store⟩
  · have uncovered : ∀ e ∈ table.entries, ¬ e.1.key <+: pfx.key := by
      intro e mem covers
      cases (LongestPrefix.best_eq_none_iff.mp missed _ covers).symm.trans (tidy.1.store_self mem)
    refine iff_of_true ⟨table, none, done, fun e mem here => ?_, fun _ => ⟨rfl, rfl⟩⟩
      (.inr uncovered)
    exact absurd (here.2 ▸ List.prefix_rfl) (uncovered e mem)
  · obtain ⟨covers, stored, _⟩ := LongestPrefix.best_eq_some_iff.mp found
    have mem := (tidy.1.store_eq_some_iff.mp stored).1
    constructor
    · rintro ⟨after', mn, done', _, absent⟩
      obtain ⟨rfl, rfl⟩ := Prod.mk.inj (Except.ok.inj (done'.symm.trans done))
      refine .inl ?_
      by_contra none
      cases (absent fun e mem here => none ⟨e, mem, here⟩).1
    · rintro (⟨e', mem', here⟩ | uncovered)
      · -- the entry at the prefix is the one that matches best
        have self := LongestPrefix.best_self (tidy.1.store_self mem')
        rw [here.2] at self
        obtain ⟨own, rfl⟩ := Prod.mk.inj (Option.some.inj (found.symm.trans self))
        refine ⟨after, _, done, fun e'' mem'' here' => ?_, fun none => absurd here (none e mem')⟩
        have same : e'' = e := by
          have there := tidy.1.store_self mem''
          rw [here'.2, ← own, stored] at there
          exact (Option.some.inj there).symm
        rw [same, ← own]
        exact ⟨rfl, store⟩
      · exact absurd covers (uncovered e mem)

/-- A deletion from the empty table changes nothing. -/
theorem tableStep_delete_empty {pfx : Prefix} (short : pfx.bitlen ≤ 128)
    : tableStep createMaptable (.delete pfx) = .ok createMaptable := by
  rcases tidy_createMaptable.delete short with ⟨_, done⟩ | ⟨e, _, found, _⟩
  · rw [tableStep, done]
    rfl
  · have stored := (LongestPrefix.best_eq_some_iff.mp found).stored
    cases (tidy_createMaptable.1.store_eq_some_iff.mp stored).1

/-- The first update leaves an entry that is not counted. -/
theorem tableStep_update_empty {pfx : Prefix} (storing : pfx.Storing) (node : Mapnode)
    : ∃ table, tableStep createMaptable (.update pfx node) = .ok table
        ∧ table.count = 0 ∧ table.entries ≠ [] := by
  obtain ⟨after, stored, done, tidy, count, ⟨_, _, e, there, _⟩ | ⟨kept, _, stores, _⟩⟩ :=
    tidy_createMaptable.update storing node
  · cases (tidy_createMaptable.1.store_eq_some_iff.mp there).1
  · refine ⟨after, by rw [tableStep, done]; rfl, count, ?_⟩
    have put : after.store = LongestPrefix.insert createMaptable.store pfx.key (kept, node) :=
      stores.store
    have there : after.store pfx.key = some (kept, node) := by
      rw [put, LongestPrefix.insert_self]
    exact List.ne_nil_of_mem (tidy.1.store_eq_some_iff.mp there).1

/-- The counter is right throughout exactly when nothing is ever stored; by induction on the
calls, the table being empty as long as they are deletions.
-/
theorem countsEntries_iff {calls : List TableCall} (fits : ∀ c ∈ calls, c.Fits)
    : CountsEntries calls ↔ ∀ c ∈ calls, c = .delete c.pfx := by
  induction calls with
  | nil =>
      refine iff_of_true (fun before rest table split ran => ?_) nofun
      obtain ⟨rfl, _⟩ := List.append_eq_nil_iff.mp split.symm
      obtain rfl := Except.ok.inj ran
      rfl
  | cons c calls ih =>
      have ih := ih fun c mem => fits c (List.mem_cons_of_mem _ mem)
      have fit : c.Fits := fits c (by simp)
      rw [List.forall_mem_cons]
      cases c with
      | update pfx node =>
          obtain ⟨table, done, count, some⟩ := tableStep_update_empty fit node
          refine iff_of_false (fun counts => ?_) (fun all => TableCall.noConfusion all.1)
          have counted := counts [.update pfx node] calls table rfl
            (EventRuns.run_cons_eq_ok.mpr ⟨table, done, rfl⟩)
          rw [count] at counted
          exact some (List.length_eq_zero_iff.mp counted.symm)
      | delete pfx =>
          have idle := tableStep_delete_empty fit
          have stays : TableCall.delete pfx = .delete (TableCall.delete pfx).pfx := rfl
          rw [← ih, and_iff_right stays]
          constructor
          · intro counts before rest table split ran
            exact counts (.delete pfx :: before) rest table (by rw [split, List.cons_append])
              (EventRuns.run_cons_eq_ok.mpr ⟨_, idle, ran⟩)
          · intro counts before rest table split ran
            cases before with
            | nil =>
                obtain rfl := Except.ok.inj ran
                rfl
            | cons first before =>
                obtain ⟨rfl, behind⟩ := List.cons.inj split
                obtain ⟨next, done, ran⟩ := EventRuns.run_cons_eq_ok.mp ran
                obtain rfl := Except.ok.inj (idle.symm.trans done)
                exact counts before rest table behind ran

/-- On every table that calls leave, a deletion is exact just where an entry is stored at its
prefix or nothing covers it; and the counter is right throughout the calls just when none of
them stores.
-/
theorem table_deletes_exactly_iff {calls : List TableCall} (fits : ∀ c ∈ calls, c.Fits)
    : (∃ table, run tableStep createMaptable calls = .ok table
        ∧ ∀ pfx : Prefix, pfx.bitlen ≤ 128
          → (DeletesExactly table pfx
            ↔ (∃ e ∈ table.entries, StoredAt e pfx)
              ∨ ∀ e ∈ table.entries, ¬ e.1.key <+: pfx.key))
      ∧ (CountsEntries calls ↔ ∀ c ∈ calls, c = .delete c.pfx) := by
  obtain ⟨table, ran, tidy⟩ := run_tidy fits
  exact ⟨⟨table, ran, fun pfx short => tidy.deletesExactly_iff short⟩, countsEntries_iff fits⟩

/-- Witness: with entries for 10.0.0.0/8 and 10.1.2.0/24, deleting either is exact, deleting
10.1.0.0/16 between them is not, and the counter is wrong.
-/
theorem nestedCalls_deleted_exactly
    : ∃ table, run tableStep createMaptable nestedCalls = .ok table
        ∧ table.entries.map (·.1.bitlen) = [8, 24]
        ∧ DeletesExactly table tenPrefix ∧ DeletesExactly table subnetPrefix
        ∧ ¬ DeletesExactly table sixteenPrefix ∧ ¬ CountsEntries nestedCalls := by
  have fits : ∀ c ∈ nestedCalls, c.Fits := fun c mem => c.fits (nestedCalls_valid c mem).1
  obtain ⟨⟨table, ran, exact_⟩, counts⟩ := table_deletes_exactly_iff fits
  obtain ⟨table', ran', lengths, ⟨ten, mem, here⟩, ⟨subnet, mem', here'⟩, apart, covering⟩
      : ∃ table, run tableStep createMaptable nestedCalls = .ok table
        ∧ table.entries.map (·.1.bitlen) = [8, 24]
        ∧ (∃ e ∈ table.entries, e.1.family = tenPrefix.family ∧ e.1.key = tenPrefix.key)
        ∧ (∃ e ∈ table.entries, e.1.family = subnetPrefix.family ∧ e.1.key = subnetPrefix.key)
        ∧ (∀ e ∈ table.entries, e.1.key ≠ sixteenPrefix.key)
        ∧ ∃ e ∈ table.entries, e.1.key <+: sixteenPrefix.key :=
    ⟨_, rfl, rfl, by decide, by decide, by decide, by decide⟩
  obtain rfl := Except.ok.inj (ran.symm.trans ran')
  refine ⟨table, ran, lengths, (exact_ tenPrefix (by decide)).mpr (.inl ⟨ten, mem, here⟩),
    (exact_ subnetPrefix (by decide)).mpr (.inl ⟨subnet, mem', here'⟩), fun whole => ?_,
    fun whole => ?_⟩
  · rcases (exact_ sixteenPrefix (by decide)).mp whole with ⟨e, mem, _, same⟩ | uncovered
    · exact apart e mem same
    · obtain ⟨e, mem, covers⟩ := covering
      exact uncovered e mem covers
  · cases counts.mp whole (.update tenPrefix .zero) List.mem_cons_self

/-- Deleting 10.1.0.0/16 removes the entry for 10.0.0.0/8. -/
theorem sixteenPrefix_deletes_ten
    : ¬ ∀ (calls : List TableCall) (table : Maptable) (pfx : Prefix),
        (∀ c ∈ calls, c.pfx.Valid) → pfx.Valid → run tableStep createMaptable calls = .ok table
          → DeletesExactly table pfx := by
  intro exact_
  have valid : ∀ c ∈ [TableCall.update tenPrefix .zero], c.pfx.Valid := by
    intro c mem
    obtain rfl := List.mem_singleton.mp mem
    exact (by decide : tenPrefix.Valid)
  obtain ⟨table, after, mn, ran, done, apart⟩
      : ∃ table after mn, run tableStep createMaptable [.update tenPrefix .zero] = .ok table
        ∧ deleteMapnode table sixteenPrefix = .ok (after, some mn)
        ∧ ∀ e ∈ table.entries, e.1.bitlen ≠ sixteenPrefix.bitlen :=
    ⟨_, _, _, rfl, rfl, by decide⟩
  obtain ⟨_, _, done', _, absent⟩ := exact_ _ table sixteenPrefix valid (by decide) ran
  obtain ⟨_, rfl⟩ := Prod.mk.inj (Except.ok.inj (done.symm.trans done'))
  have none : ∀ e ∈ table.entries, ¬ StoredAt e sixteenPrefix := by
    intro e mem here
    have length := congrArg List.length here.2
    rw [Prefix.key_length, Prefix.key_length] at length
    exact apart e mem length
  cases (absent none).1

end Lixy
