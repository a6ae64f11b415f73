import Lixy.MapTable.Operations
import Lixy.Patricia.Strays

/-! The map table as a longest-prefix store: each operation of maptable.c is an insertion,
an erasure or a best match of the keys stored.
-/

namespace Lixy

open ByteStrings
open LongestPrefix (Store best)

/-- The stored prefix and mapnode under each key. -/
def Maptable.store (table : Maptable) : Store Bool (Prefix × Mapnode) := table.tree.head.store

/-- The entries of the table. -/
def Maptable.entries (table : Maptable) : List (Prefix × Mapnode) := table.tree.head.entries

/-- The entries of the table by their keys, and the mapnode under no prefix. -/
def Maptable.outline (table : Maptable) : Outline Mapnode := table.tree.head.outline

/-- What every operation keeps of a table. -/
abbrev TableOk (table : Maptable) : Prop := TreeOk table.tree

/-- Every mapnode of the table lies under a prefix. -/
abbrev Maptable.NoOrphans (table : Maptable) : Prop := Lixy.NoOrphans table.tree.head

theorem tableOk_createMaptable : TableOk createMaptable := treeOk_newPatricia

theorem TableOk.store_eq_some_iff {table : Maptable} (ok : TableOk table) {key : List Bool}
    {e : Prefix × Mapnode}
    : table.store key = some e ↔ e ∈ table.entries ∧ e.1.key = key :=
  ok.wf.store_eq_some_iff

theorem TableOk.store_self {table : Maptable} (ok : TableOk table) {e : Prefix × Mapnode}
    (mem : e ∈ table.entries)
    : table.store e.1.key = some e :=
  ok.store_eq_some_iff.mpr ⟨mem, rfl⟩

-----------------------------------------------------------------------------------------
-- search_mapnode
-----------------------------------------------------------------------------------------

/-- `search_mapnode` finds the best match of the prefix's key. -/
theorem searchMapnode_spec {table : Maptable} {pfx : Prefix} (ok : TableOk table)
    (short : pfx.bitlen ≤ 128)
    : (best table.store pfx.key = none ∧ searchMapnode table pfx = .ok none)
      ∨ ∃ e z, best table.store pfx.key = some (e.1.key, e)
        ∧ searchMapnode table pfx = .ok (some (z, e.2))
        ∧ z.Holds e ∧ LocOk z ∧ z.head = table.tree.head := by
  rcases patriciaSearchBest_spec ok.wf (ok.maxbits.symm ▸ short : pfx.bitlen ≤ table.tree.maxbits)
    with ⟨none, search⟩ | ⟨e, z, found, search, holds, locOk, head⟩
  · refine Or.inl ⟨none, ?_⟩
    rw [searchMapnode, search]
    rfl
  · refine Or.inr ⟨e, z, found, ?_, holds, locOk, head⟩
    rw [searchMapnode, search]
    simp [bind, Except.bind, pure, Except.pure, holds.data]

/-- A longer prefix fails the assertion of the search. -/
theorem searchMapnode_too_long {table : Maptable} {pfx : Prefix} (ok : TableOk table)
    (long : ¬ pfx.bitlen ≤ 128)
    : searchMapnode table pfx = .error (.assertFailed .bitlenFits) := by
  rw [searchMapnode, patriciaSearchBest_too_long (ok.maxbits.symm ▸ long)]
  rfl

/-- Writing through the pointer to an entry leaves the mapnode without a prefix. -/
theorem write_stray {table : Maptable} {z : Loc Mapnode} {e : Prefix × Mapnode}
    (holds : z.Holds e) (locOk : LocOk z) (head : z.head = table.tree.head) (mn : Mapnode)
    : (table.write z mn).tree.head.stray = table.tree.head.stray :=
  (locOk.setData_stray holds mn).trans (congrArg PatriciaNode.stray head)

/-- It replaces that entry. -/
theorem write_spec {table : Maptable} (ok : TableOk table) {z : Loc Mapnode}
    {e : Prefix × Mapnode} (holds : z.Holds e) (locOk : LocOk z)
    (head : z.head = table.tree.head) (mn : Mapnode)
    : TableOk (table.write z mn)
      ∧ (table.write z mn).store = LongestPrefix.insert table.store e.1.key (e.1, mn)
      ∧ (table.NoOrphans → (table.write z mn).NoOrphans) := by
  refine ⟨⟨(locOk.setData holds mn).wellFormed, ok.maxbits, ?_, ?_⟩, ?_, ?_⟩
  · exact ((setData_addrs z mn).nodup_iff.mpr (head ▸ ok.distinct))
  · intro a ha
    exact ok.fresh a (head ▸ (setData_addrs z mn).mem_iff.mp ha)
  · change (z.setData mn).head.store = _
    rw [locOk.store_setData holds, head]
    rfl
  · intro noOrphans
    exact (noOrphans_iff (locOk.setData holds mn).wellFormed).mpr
      ((write_stray holds locOk head mn).trans ((noOrphans_iff ok.wf).mp noOrphans))

-----------------------------------------------------------------------------------------
-- update_mapnode
-----------------------------------------------------------------------------------------

/-- `update_mapnode` is a lookup and then a refusal or a store. -/
theorem updateMapnode_cases {table after : Maptable} {pfx : Prefix} {node : Mapnode}
    {stored : Bool} (done : updateMapnode table pfx node = .ok (after, stored))
    : ∃ tree pn, patriciaLookup table.tree pfx = .ok (tree, pn)
      ∧ ((∃ mn, pn.data = some mn ∧ mn.state = .static
            ∧ after = { table with tree } ∧ stored = false)
          ∨ ((∀ mn, pn.data = some mn → mn.state ≠ .static)
            ∧ after = { table with tree := { tree with head := (pn.setData node).head } }
            ∧ stored = true)) := by
  rw [updateMapnode] at done
  cases lookup : patriciaLookup table.tree pfx with
  | error f => simp [lookup, bind, Except.bind] at done
  | ok result =>
      obtain ⟨tree, pn⟩ := result
      refine ⟨tree, pn, rfl, ?_⟩
      simp only [lookup, bind, Except.bind] at done
      split at done
      · next mn data =>
          split at done
          · next static =>
              obtain ⟨rfl, rfl⟩ := Prod.mk.inj (Except.ok.inj done)
              exact Or.inl ⟨mn, data, static, rfl, rfl⟩
          · next movable =>
              obtain ⟨rfl, rfl⟩ := Prod.mk.inj (Except.ok.inj done)
              refine Or.inr ⟨?_, rfl, rfl⟩
              intro mn' data'
              obtain rfl : mn = mn' := Option.some.inj (data.symm.trans data')
              exact movable
      · next none =>
          obtain ⟨rfl, rfl⟩ := Prod.mk.inj (Except.ok.inj done)
          refine Or.inr ⟨?_, rfl, rfl⟩
          rw [none]
          nofun

/-- What `update_mapnode` did: it refused to replace a STATIC entry, it stored the mapnode
under the prefix's key, or it hung it on a node without prefix.
-/
inductive Updated (before after : Maptable) (pfx : Prefix) (node : Mapnode) : Bool → Prop
  | refused {e : Prefix × Mapnode} (stored : before.store pfx.key = some e)
      (static : e.2.state = .static) (same : after = before)
      : Updated before after pfx node false
  | stored {kept : Prefix}
      (stores : Stores before.tree.head after.tree.head pfx node kept)
      (replaces : ∀ e, before.store pfx.key = some e → e.2.state ≠ .static)
      : Updated before after pfx node true
  | orphaned (unknown : refPrefix pfx = none) (absent : before.store pfx.key = none)
      (same : after.store = before.store)
      : Updated before after pfx node true

/-- `update_mapnode` inserts, refuses or orphans; the table stays in order. -/
theorem updateMapnode_spec {table after : Maptable} {pfx : Prefix} {node : Mapnode}
    {stored : Bool} (ok : TableOk table) (storable : pfx.Storable)
    (done : updateMapnode table pfx node = .ok (after, stored))
    : TableOk after ∧ Updated table after pfx node stored := by
  obtain ⟨tree, pn, lookup, cases⟩ := updateMapnode_cases done
  rcases cases with ⟨mn, data, static, rfl, rfl⟩ | ⟨movable, rfl, rfl⟩
  · rcases patriciaLookup_data ok storable lookup node with ⟨e, stored, data', rfl⟩ | ⟨_, none⟩
    · obtain rfl : e.2 = mn := by rw [data] at data'; exact (Option.some.inj data').symm
      exact ⟨ok, .refused stored static rfl⟩
    · rw [data] at none
      cases none
  · obtain ⟨treeOk, stores⟩ := patriciaLookup_setData ok storable lookup node
    refine ⟨treeOk, ?_⟩
    rcases stores with ⟨unknown, absent, same⟩ | ⟨kept, stores⟩
    · exact .orphaned unknown absent same
    · refine .stored stores ?_
      intro e stored
      rcases patriciaLookup_data ok storable lookup node with ⟨e', stored', data, _⟩ | ⟨absent, _⟩
      · obtain rfl : e = e' := Option.some.inj (stored.symm.trans stored')
        exact movable e.2 data
      · cases stored.symm.trans absent

/-- `update_mapnode` goes through exactly for the prefixes of at most 128 bits that the table
admits.
-/
theorem updateMapnode_total_iff {table : Maptable} {pfx : Prefix} (ok : TableOk table)
    (node : Mapnode)
    : (∃ result, updateMapnode table pfx node = .ok result)
      ↔ pfx.bitlen ≤ 128 ∧ table.outline.Admits pfx.key := by
  refine Iff.trans ?_ (patriciaLookup_total_iff ok.wf ok.maxbits)
  constructor
  · rintro ⟨result, done⟩
    obtain ⟨tree, pn, lookup, _⟩ := updateMapnode_cases done
    exact ⟨_, lookup⟩
  · rintro ⟨⟨tree, pn⟩, lookup⟩
    rw [updateMapnode, lookup]
    simp only [bind, Except.bind]
    split
    · split <;> exact ⟨_, rfl⟩
    · exact ⟨_, rfl⟩

/-- Without orphans `update_mapnode` fails no assertion. -/
theorem updateMapnode_total {table : Maptable} {pfx : Prefix} (ok : TableOk table)
    (noOrphans : table.NoOrphans) (short : pfx.bitlen ≤ 128) (node : Mapnode)
    : ∃ result, updateMapnode table pfx node = .ok result :=
  (updateMapnode_total_iff ok node).mpr ⟨short, Or.inl ((noOrphans_iff ok.wf).mp noOrphans)⟩

/-- A mapnode for a prefix without a copy whose key was not stored is left without a prefix;
else `update_mapnode` leaves the one there.
-/
theorem updateMapnode_stray {table after : Maptable} {pfx : Prefix} {node : Mapnode}
    {stored : Bool} (ok : TableOk table) (storable : pfx.Storable)
    (done : updateMapnode table pfx node = .ok (after, stored))
    : after.outline.stray
      = if (refPrefix pfx).isSome ∨ (table.store pfx.key).isSome then
          table.outline.stray
        else
          some node := by
  obtain ⟨tree, pn, lookup, cases⟩ := updateMapnode_cases done
  rcases cases with ⟨mn, data, _, rfl, _⟩ | ⟨_, rfl, _⟩
  · rcases patriciaLookup_data ok storable lookup node with ⟨e, stored, _, rfl⟩ | ⟨_, none⟩
    · have present : table.store pfx.key = some e := stored
      rw [if_pos (Or.inr (by rw [present]; rfl))]
    · rw [data] at none
      cases none
  · exact patriciaLookup_stray ok storable lookup node

/-- `update_mapnode` leaves an orphan exactly when the prefix has no copy and its key was
not stored.
-/
theorem updateMapnode_noOrphans {table after : Maptable} {pfx : Prefix} {node : Mapnode}
    {stored : Bool} (ok : TableOk table) (storable : pfx.Storable)
    (noOrphans : table.NoOrphans)
    (done : updateMapnode table pfx node = .ok (after, stored))
    : after.NoOrphans ↔ (refPrefix pfx).isSome ∨ (table.store pfx.key).isSome := by
  have stray : after.tree.head.stray = _ := updateMapnode_stray ok storable done
  rw [Maptable.NoOrphans, noOrphans_iff (updateMapnode_spec ok storable done).1.wf, stray]
  split
  · next kept => exact iff_of_true ((noOrphans_iff ok.wf).mp noOrphans) kept
  · next left => exact iff_of_false nofun left

-----------------------------------------------------------------------------------------
-- delete_mapnode
-----------------------------------------------------------------------------------------

/-- `delete_mapnode` erases the best match, if there is one. -/
theorem deleteMapnode_spec {table after : Maptable} {pfx : Prefix} {mn : Option Mapnode}
    (ok : TableOk table) (short : pfx.bitlen ≤ 128)
    (done : deleteMapnode table pfx = .ok (after, mn))
    : TableOk after
      ∧ (table.NoOrphans → after.NoOrphans)
      ∧ ((best table.store pfx.key = none ∧ after = table)
        ∨ ∃ e, best table.store pfx.key = some (e.1.key, e)
          ∧ after.store = LongestPrefix.erase table.store e.1.key) := by
  rw [deleteMapnode] at done
  rcases patriciaSearchBest_spec ok.wf (ok.maxbits.symm ▸ short : pfx.bitlen ≤ table.tree.maxbits)
    with ⟨none, search⟩ | ⟨e, z, found, search, holds, locOk, head⟩
  · rw [search] at done
    obtain ⟨rfl, _⟩ := Prod.mk.inj (Except.ok.inj done)
    exact ⟨ok, id, Or.inl ⟨none, rfl⟩⟩
  · rw [search] at done
    simp only [bind, Except.bind] at done
    split at done
    · cases done
    · next tree removal =>
        obtain ⟨rfl, _⟩ := Prod.mk.inj (Except.ok.inj done)
        obtain ⟨a, bit, l, r, node_eq⟩ := holds
        have removed := patriciaRemove_spec ok locOk head node_eq removal
        exact ⟨removed.treeOk, removed.noOrphans, Or.inr ⟨e, found, removed.store⟩⟩

/-- Searching the prefix of an entry leads to the node of just that entry. -/
theorem TreeOk.search_own {t : PatriciaTree Mapnode} {z : Loc Mapnode} {e : Prefix × Mapnode}
    (ok : TreeOk t) (head : z.head = t.head) (holds : z.Holds e)
    : ∃ z', patriciaSearchBest t e.1 = .ok (some z') ∧ z'.node = z.node ∧ LocOk z'
        ∧ z'.head = t.head := by
  have mem : e ∈ t.head.entries := head ▸ holds.mem
  have self : best t.head.store e.1.key = some (e.1.key, e) :=
    LongestPrefix.best_self (ok.wf.store_eq_some_iff.mpr ⟨mem, rfl⟩)
  rcases patriciaSearchBest_spec ok.wf
      (ok.maxbits.symm ▸ ok.wf.bitlen_le mem : e.1.bitlen ≤ t.maxbits)
    with ⟨none, _⟩ | ⟨e', z', found, search, holds', locOk, head'⟩
  · rw [self] at none
    cases none
  · rw [self] at found
    obtain rfl : e = e' := (Prod.mk.inj (Option.some.inj found)).2
    exact ⟨z', search, ok.node_unique head' head holds' holds rfl, locOk, head'⟩

/-- Deleting the prefix of an entry removes the node of just that entry. -/
theorem deleteMapnode_own {table after : Maptable} {mn : Option Mapnode} {z : Loc Mapnode}
    {e : Prefix × Mapnode} {a bit : Nat} {l r : PatriciaNode Mapnode} (ok : TableOk table)
    (head : z.head = table.tree.head)
    (node_eq : z.node = PatriciaNode.node a bit (some e.1) (some e.2) l r)
    (done : deleteMapnode table e.1 = .ok (after, mn))
    : Removed table.tree after.tree e a l r := by
  obtain ⟨z', search, same, locOk, head'⟩ := ok.search_own head ⟨a, bit, l, r, node_eq⟩
  rw [deleteMapnode, search] at done
  simp only [bind, Except.bind] at done
  split at done
  · cases done
  · next tree removal =>
      obtain ⟨rfl, _⟩ := Prod.mk.inj (Except.ok.inj done)
      exact patriciaRemove_spec ok locOk head' (same.trans node_eq) removal

/-- Deleting the prefix of an entry does not fail when its node has both children. -/
theorem deleteMapnode_own_total {table : Maptable} {z : Loc Mapnode}
    {e : Prefix × Mapnode} {a bit : Nat} {l r : PatriciaNode Mapnode} (ok : TableOk table)
    (head : z.head = table.tree.head)
    (node_eq : z.node = PatriciaNode.node a bit (some e.1) (some e.2) l r)
    (left : l ≠ .null) (right : r ≠ .null)
    : ∃ result, deleteMapnode table e.1 = .ok result := by
  obtain ⟨z', search, same, _, _⟩ := ok.search_own head ⟨a, bit, l, r, node_eq⟩
  rw [deleteMapnode, search]
  simp only [bind, Except.bind, patriciaRemove, same, node_eq,
    PatriciaNode.isNull_eq_false.mpr left, PatriciaNode.isNull_eq_false.mpr right]
  exact ⟨_, rfl⟩

/-- Without orphans `delete_mapnode` does not fail. -/
theorem deleteMapnode_total {table : Maptable} {pfx : Prefix} (ok : TableOk table)
    (noOrphans : table.NoOrphans) (short : pfx.bitlen ≤ 128)
    : ∃ result, deleteMapnode table pfx = .ok result := by
  rw [deleteMapnode]
  rcases patriciaSearchBest_spec ok.wf (ok.maxbits.symm ▸ short : pfx.bitlen ≤ table.tree.maxbits)
    with ⟨_, search⟩ | ⟨e, z, _, search, _, locOk, head⟩
  · rw [search]
    exact ⟨_, rfl⟩
  · obtain ⟨tree, removal⟩ : ∃ tree, patriciaRemove table.tree z = .ok tree :=
      patriciaRemove_total locOk (head ▸ noOrphans)
    rw [search]
    simp only [bind, Except.bind, removal]
    exact ⟨_, rfl⟩

end Lixy
