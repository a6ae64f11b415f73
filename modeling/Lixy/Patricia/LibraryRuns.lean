import Lixy.Control.Strings
import Lixy.Patricia.ExactSearch
import Lixy.Patricia.Strays

/-! Runs of the library's calls on a tree of its own: the tree stands for a finite map from
leading bits, every search answers from that map, and the nodes are counted.
-/

namespace Lixy

open ByteStrings
open PatriciaNode
open LongestPrefix (Store best bestProper)
open EventRuns (run)

variable {α : Type}

-----------------------------------------------------------------------------------------
-- Calls
-----------------------------------------------------------------------------------------

section

variable (inetPton6 : List Byte → Option (Bytes 16))

/-- `try_search_exact`. The parsed prefix has one reference, so `Deref_Prefix` frees it. -/
def trySearchExact (tree : PatriciaTree α) (afi : Nat) (string : List Byte)
    : Except LibraryFault (Option (Loc α)) := do
  match ← libraryCall (Control.ascii2prefix inetPton6 afi string) with
  | none => .error (.assertFailed .prefixGiven)
  | some pfx => patriciaSearchExact tree pfx

/-- `lookup_then_remove` -/
def lookupThenRemove (tree : PatriciaTree α) (afi : Nat) (string : List Byte)
    : Except LibraryFault (PatriciaTree α) := do
  match ← trySearchExact inetPton6 tree afi string with
  | none => return tree
  | some found => libraryCall (patriciaRemove tree found)

/-- A call that changes a tree. -/
inductive TreeCall (α : Type)
  /-- `PATRICIA_DATA_SET` on what `patricia_lookup` returns. -/
  | store (pfx : Prefix) (d : α)
  | lookupThenRemove (afi : Nat) (string : List Byte)
  /-- `patricia_remove` of what `patricia_search_best2` returns. -/
  | removeBest (pfx : Prefix) (inclusive : Bool)

/-- The tree after a call. -/
def treeStep (tree : PatriciaTree α) : TreeCall α → Except LibraryFault (PatriciaTree α)
  | .store pfx d => do
      let (tree, found) ← libraryCall (patriciaLookup tree pfx)
      return { tree with head := (found.setData d).head }
  | .lookupThenRemove afi string => lookupThenRemove inetPton6 tree afi string
  | .removeBest pfx inclusive => do
      match ← libraryCall (patriciaSearchBest2 tree pfx inclusive) with
      | none => return tree
      | some found => libraryCall (patriciaRemove tree found)

/-- The longest stored key that covers the query, the query itself counted or not. -/
def best2 {β : Type} (map : Store Bool β) (query : List Bool) (inclusive : Bool)
    : Option (List Bool × β) :=
  if inclusive then best map query else bestProper map query

/-- What a call does to the map that the tree stands for. -/
def TreeCall.effect (map : Store Bool α) : TreeCall α → Store Bool α
  | .store pfx d => LongestPrefix.insert map pfx.key d
  | .lookupThenRemove afi string =>
      match Control.ascii2prefix inetPton6 afi string with
      | .ok (some pfx) => LongestPrefix.erase map pfx.key
      | _ => map
  | .removeBest pfx inclusive =>
      match best2 map pfx.key inclusive with
      | some (key, _) => LongestPrefix.erase map key
      | none => map

/-- What a call is given: valid prefixes, and text that stands for one. -/
def TreeCall.Fits : TreeCall α → Prop
  | .store pfx _ => pfx.Valid
  | .lookupThenRemove afi string =>
      ∃ pfx, Control.ascii2prefix inetPton6 afi string = .ok (some pfx)
  | .removeBest pfx _ => pfx.bitlen ≤ 128

end

-----------------------------------------------------------------------------------------
-- Counted nodes
-----------------------------------------------------------------------------------------

section

variable {before after : PatriciaTree α} {pfx : Prefix} {z : Loc α}

/-- `num_active_node` is the number of nodes. -/
def Counted (t : PatriciaTree α) : Prop := t.numActiveNode = t.head.size

theorem size_eq_addrs (n : PatriciaNode α) : n.size = n.addrs.length := by
  induction n with
  | null => rfl
  | node a bit pfx data l r ihl ihr =>
      rw [addrs_node, List.length_cons, List.length_append, size, ihl, ihr]

/-- The number of nodes in and beside a path. -/
theorem plug_size (n : PatriciaNode α) (path : List (Frame α))
    : (plug n path).size = n.size + (pathCollect (fun addr _ _ => [addr]) path).length := by
  rw [size_eq_addrs, size_eq_addrs, addrs, (plug_collect _ n path).length_eq, List.length_append]
  rfl

theorem setData_size (z : Loc α) (d : α) : (z.setData d).head.size = z.head.size := by
  rw [size_eq_addrs, size_eq_addrs, (setData_addrs z d).length_eq]

/-- `patricia_lookup` counts the nodes that it allocates. -/
theorem patriciaLookup_allocated (done : patriciaLookup before pfx = .ok (after, z))
    : after.numActiveNode - before.numActiveNode = after.brk - before.brk := by
  unfold patriciaLookup at done
  split at done
  · dsimp only at done
    split at done
    · obtain ⟨rfl, _⟩ := Prod.mk.inj (Except.ok.inj done)
      dsimp only
      omega
    · split at done
      · cases done
      · cases done
      · generalize climb _ _ _ = stop at done
        unfold patriciaAttach at done
        split at done
        · cases done
        · dsimp only at done
          repeat' split at done
          all_goals first
            | cases done
              done
            | obtain ⟨rfl, _⟩ := Prod.mk.inj (Except.ok.inj done)
              first
                | exact (Int.sub_self _).trans (Int.sub_self _).symm
                | dsimp only
                  omega
  · cases done

/-- Storing through a lookup keeps the count. -/
theorem Counted.store (counted : Counted before) (ok : TreeOk before) (storable : pfx.Storable)
    (done : patriciaLookup before pfx = .ok (after, z)) (d : α)
    : Counted { after with head := (z.setData d).head } := by
  have allocated := patriciaLookup_allocated done
  unfold Counted at counted ⊢
  dsimp only
  rcases patriciaLookup_spec ok.wf ok.maxbits storable done with found | fresh
  · rw [found.same, setData_size, found.head, counted]
  · obtain ⟨k, brk, addrs⟩ := fresh.addrs
    rw [size_eq_addrs] at counted ⊢
    rw [(addrs d).length_eq, List.length_append, List.length_range']
    omega

/-- `patricia_remove` keeps the count. -/
theorem Counted.remove (counted : Counted before) (head : z.head = before.head)
    (done : patriciaRemove before z = .ok after)
    : Counted after := by
  obtain ⟨n, path⟩ := z
  have whole : before.numActiveNode
      = (n.size + (pathCollect (fun addr _ _ => [addr]) path).length : Nat) := by
    rw [counted, ← head]
    exact congrArg _ (plug_size n path)
  unfold Counted
  cases n with
  | null => cases done
  | node a bit pfx data l r =>
      rw [size] at whole
      simp only [patriciaRemove] at done
      split at done
      · obtain rfl := Except.ok.inj done
        rw [plug_size, size, whole]
      · next notBoth =>
          split at done
          · next leaf =>
              obtain ⟨rfl, rfl⟩ : r = null ∧ l = null := by simpa using leaf
              cases path with
              | nil =>
                  obtain rfl := Except.ok.inj done
                  rw [whole]
                  rfl
              | cons f above =>
                  have length : (pathCollect (fun addr _ _ => [addr]) (f :: above)).length
                      = 1 + f.sibling.size
                        + (pathCollect (fun addr _ _ => [addr]) above).length := by
                    rw [pathCollect, List.length_append, List.length_append, size_eq_addrs]
                    rfl
                  simp only [length, size] at whole
                  dsimp only at done
                  split at done
                  · obtain rfl := Except.ok.inj done
                    have filled : (f.fill null).size = f.sibling.size + 1 := by
                      unfold Frame.fill
                      split <;> simp [size]
                    rw [plug_size, filled, whole]
                    dsimp only
                    omega
                  · split at done
                    · cases done
                    · obtain rfl := Except.ok.inj done
                      rw [plug_size, whole]
                      dsimp only
                      omega
          · next notLeaf =>
              obtain rfl := Except.ok.inj done
              rw [plug_size, whole]
              cases l with
              | null =>
                  have there : r.isNull = false := by
                    cases r with
                    | null => exact (notLeaf rfl).elim
                    | node => rfl
                  simp only [there, size, Bool.false_eq_true, if_false]
                  omega
              | node a' bit' pfx' data' l' r' =>
                  have missing : r = null := by
                    cases r with
                    | null => rfl
                    | node => exact (notBoth rfl).elim
                  simp only [missing, isNull, if_true, size]
                  omega

/-- A node without prefix has two children or data, so there are fewer of them than of nodes
with data; by induction on the subtree.
-/
theorem Rooted.size_le {k : List Bool} {n : PatriciaNode α} (h : Rooted k n)
    : n.size + 1 ≤ 2 * n.carriers.length := by
  induction n generalizing k with
  | null => exact h.elim
  | node a bit pfx data l r ihl ihr =>
      obtain ⟨own, left, right⟩ := h
      have below {n : PatriciaNode α} {b : Bool} (ih : ∀ {k}, Rooted k n
            → n.size + 1 ≤ 2 * n.carriers.length)
          (child : n = null ∨ ∃ kn, k ++ [b] <+: kn ∧ Rooted kn n)
          : n.size ≤ 2 * n.carriers.length ∧ (n ≠ null → n.size + 1 ≤ 2 * n.carriers.length) := by
        rcases child with rfl | ⟨_, _, rooted⟩
        · exact ⟨Nat.le_refl _, fun some => (some rfl).elim⟩
        · exact ⟨Nat.le_of_succ_le (ih rooted), fun _ => ih rooted⟩
      obtain ⟨leL, ltL⟩ := below ihl left
      obtain ⟨leR, ltR⟩ := below ihr right
      have parts : (node a bit pfx data l r).carriers.length
          = data.toList.length + (l.carriers.length + r.carriers.length) := by
        simp [carriers, collect, nodeCarrier]
      rw [parts, size]
      cases data with
      | some d =>
          simp only [Option.toList_some, List.length_singleton]
          omega
      | none =>
          cases pfx with
          | some p => cases (own.own p rfl).2
          | none =>
              rcases own.glue rfl with ⟨_, some⟩ | ⟨_, left, right⟩
              · cases some
              · have := ltL left
                have := ltR right
                simp only [Option.toList_none, List.length_nil]
                omega

/-- Without orphans the nodes with data are the entries. -/
theorem NoOrphans.carriers_length {n : PatriciaNode α} (h : NoOrphans n)
    : n.carriers.length = n.entries.length := by
  induction n with
  | null => rfl
  | node a bit pfx data l r ihl ihr =>
      have parts : (node a bit pfx data l r).carriers
          = nodeCarrier pfx data ++ (l.carriers ++ r.carriers) := rfl
      have own : (nodeCarrier pfx data).length = (nodeEntry pfx data).length := by
        cases data with
        | none => cases pfx <;> rfl
        | some d =>
            cases pfx with
            | some p => rfl
            | none =>
                have orphan := h (none, d) (by rw [parts]; simp [nodeCarrier])
                cases orphan
      rw [parts, entries_node, List.length_append, List.length_append, List.length_append,
        List.length_append, own, ihl fun c mem => h c (by rw [parts]; simp [mem]),
        ihr fun c mem => h c (by rw [parts]; simp [mem])]

end

-----------------------------------------------------------------------------------------
-- What a tree stands for
-----------------------------------------------------------------------------------------

/-- What the node at a position tells: the key of its prefix, and its data. -/
def Loc.found (z : Loc α) : Option (List Bool × α) :=
  match z.node with
  | .node _ _ (some own) (some d) _ _ => some (own.key, d)
  | _ => none

theorem Loc.Holds.found {z : Loc α} {e : Prefix × α} (h : z.Holds e)
    : z.found = some (e.1.key, e.2) := by
  obtain ⟨a, bit, l, r, node_eq⟩ := h
  rw [Loc.found, node_eq]

/-- The tree is in order, its prefixes are referenced and its nodes counted, and it holds the
map's data.
-/
structure Represents (t : PatriciaTree α) (map : Store Bool α) : Prop where
  ok : TreeOk t
  noOrphans : NoOrphans t.head
  referenced : ∀ e ∈ t.head.entries, 0 < e.1.refCount
  counted : Counted t
  holds : map = fun key => (t.head.store key).map Prod.snd

theorem Represents.at_key {t : PatriciaTree α} {map : Store Bool α} (rep : Represents t map)
    (key : List Bool)
    : map key = (t.head.store key).map Prod.snd :=
  congrFun rep.holds key

/-- The entries are what the map holds. -/
theorem Represents.holds_iff {t : PatriciaTree α} {map : Store Bool α} (rep : Represents t map)
    (key : List Bool) (d : α)
    : map key = some d ↔ ∃ e ∈ t.head.entries, e.1.key = key ∧ e.2 = d := by
  rw [rep.at_key, Option.map_eq_some_iff]
  constructor
  · rintro ⟨e, stored, rfl⟩
    obtain ⟨mem, own⟩ := rep.ok.wf.store_eq_some_iff.mp stored
    exact ⟨e, mem, own, rfl⟩
  · rintro ⟨e, mem, own, rfl⟩
    exact ⟨e, rep.ok.wf.store_eq_some_iff.mpr ⟨mem, own⟩, rfl⟩

theorem represents_newPatricia : Represents (newPatricia 128 : PatriciaTree α) fun _ => none where
  ok := treeOk_newPatricia
  noOrphans := nofun
  referenced := nofun
  counted := rfl
  holds := rfl

theorem best2_map {β γ : Type} (f : β → γ) (map : Store Bool β) (query : List Bool)
    (inclusive : Bool)
    : best2 (fun key => (map key).map f) query inclusive
      = (best2 map query inclusive).map fun found => (found.1, f found.2) := by
  unfold best2 bestProper
  split
  · exact LongestPrefix.best_map f map query
  · split
    · rfl
    · exact LongestPrefix.best_map f map query.dropLast

/-- Both modes of `patricia_search_best2` find the best match of their kind. -/
theorem patriciaSearchBest2_spec {t : PatriciaTree α} {pfx : Prefix} (wf : WellFormed t.head)
    (fits : pfx.bitlen ≤ t.maxbits) (inclusive : Bool)
    : (best2 t.head.store pfx.key inclusive = none
        ∧ patriciaSearchBest2 t pfx inclusive = .ok none)
      ∨ ∃ e z, best2 t.head.store pfx.key inclusive = some (e.1.key, e)
        ∧ patriciaSearchBest2 t pfx inclusive = .ok (some z)
        ∧ z.Holds e ∧ LocOk z ∧ z.head = t.head := by
  cases inclusive with
  | true => exact patriciaSearchBest_spec wf fits
  | false => exact patriciaSearchBest2_proper wf fits

/-- What `Ref_Prefix` returns has a reference. -/
theorem refPrefix_referenced {pfx copy : Prefix} (h : refPrefix pfx = some copy)
    : 0 < copy.refCount := by
  unfold refPrefix newPrefix at h
  split at h
  · split at h
    · rw [← Option.some.inj h]
      exact Nat.one_pos
    · split at h
      · rw [← Option.some.inj h]
        exact Nat.one_pos
      · cases h
  · rw [← Option.some.inj h]
    exact Nat.succ_pos _

section

variable {t : PatriciaTree α} {map : Store Bool α}

/-- Storing through a lookup stores in the map. -/
theorem Represents.store (rep : Represents t map) {pfx : Prefix} (valid : pfx.Valid) (d : α)
    : ∃ after z, patriciaLookup t pfx = .ok (after, z)
        ∧ Represents { after with head := (z.setData d).head }
          (LongestPrefix.insert map pfx.key d) := by
  obtain ⟨⟨after, z⟩, done⟩ :=
    patriciaLookup_total rep.ok.wf rep.ok.maxbits rep.noOrphans valid.storable.short
  obtain ⟨ok, stores⟩ := patriciaLookup_setData rep.ok valid.storable done d
  have copies := refPrefix_isSome valid.family
  rcases stores with ⟨unknown, _⟩ | ⟨kept, stores⟩
  · rw [unknown] at copies
    cases copies
  · refine ⟨after, z, done, ok, ?_, ?_, rep.counted.store rep.ok valid.storable done d, ?_⟩
    · exact (patriciaLookup_noOrphans rep.ok valid.storable done d rep.noOrphans).mpr (.inl copies)
    · intro e mem
      have there := ok.wf.store_eq_some_iff.mpr ⟨mem, rfl⟩
      rw [stores.store] at there
      by_cases own : e.1.key = pfx.key
      · rw [own, LongestPrefix.insert_self] at there
        obtain rfl := Option.some.inj there
        cases old : t.head.store pfx.key with
        | none => exact refPrefix_referenced (stores.new old)
        | some e =>
            rw [stores.old e old]
            exact rep.referenced e (rep.ok.wf.store_eq_some_iff.mp old).1
      · rw [LongestPrefix.insert_of_ne _ _ own] at there
        exact rep.referenced e (rep.ok.wf.store_eq_some_iff.mp there).1
    · funext key
      change _ = ((z.setData d).head.store key).map Prod.snd
      rw [stores.store, rep.holds]
      by_cases own : key = pfx.key
      · subst own
        rw [LongestPrefix.insert_self, LongestPrefix.insert_self]
        rfl
      · rw [LongestPrefix.insert_of_ne _ _ own, LongestPrefix.insert_of_ne _ _ own]

/-- Removing the node of an entry erases its key from the map. -/
theorem Represents.remove (rep : Represents t map) {z : Loc α} {e : Prefix × α}
    (holds : z.Holds e) (locOk : LocOk z) (head : z.head = t.head)
    : ∃ after, patriciaRemove t z = .ok after
        ∧ Represents after (LongestPrefix.erase map e.1.key) := by
  obtain ⟨after, done⟩ := @patriciaRemove_total _ t _ locOk (head ▸ rep.noOrphans)
  obtain ⟨a, bit, l, r, node_eq⟩ := id holds
  have removed := patriciaRemove_spec rep.ok locOk head node_eq done
  refine ⟨after, done, removed.treeOk, removed.noOrphans rep.noOrphans,
    fun e mem => rep.referenced e (removed.entries e mem), rep.counted.remove head done, ?_⟩
  funext key
  rw [removed.store, rep.holds]
  by_cases own : key = e.1.key
  · subst own
    rw [LongestPrefix.erase_self, LongestPrefix.erase_self]
    rfl
  · rw [LongestPrefix.erase_of_ne _ own, LongestPrefix.erase_of_ne _ own]

/-- `patricia_search_exact` tells what the map has under the prefix's key. -/
theorem Represents.searchExact (rep : Represents t map) {pfx : Prefix} (short : pfx.bitlen ≤ 128)
    : (map pfx.key = none ∧ patriciaSearchExact t pfx = .ok none)
      ∨ ∃ e z, map pfx.key = some e.2 ∧ e.1.key = pfx.key
        ∧ patriciaSearchExact t pfx = .ok (some z)
        ∧ z.Holds e ∧ LocOk z ∧ z.head = t.head := by
  rcases patriciaSearchExact_spec rep.ok.wf (rep.ok.maxbits.symm ▸ short : pfx.bitlen ≤ t.maxbits)
    with ⟨none, search⟩ | ⟨e, z, stored, search, found⟩
  · exact .inl ⟨by rw [rep.at_key, none]; rfl, search⟩
  · refine .inr ⟨e, z, by rw [rep.at_key, stored]; rfl, ?_, search, found⟩
    exact (rep.ok.wf.store_eq_some_iff.mp stored).2

/-- `patricia_search_best2` tells the best match in the map. -/
theorem Represents.searchBest2 (rep : Represents t map) {pfx : Prefix} (short : pfx.bitlen ≤ 128)
    (inclusive : Bool)
    : (best2 map pfx.key inclusive = none ∧ patriciaSearchBest2 t pfx inclusive = .ok none)
      ∨ ∃ e z, best2 map pfx.key inclusive = some (e.1.key, e.2)
        ∧ patriciaSearchBest2 t pfx inclusive = .ok (some z)
        ∧ z.Holds e ∧ LocOk z ∧ z.head = t.head := by
  rw [rep.holds, best2_map]
  rcases patriciaSearchBest2_spec rep.ok.wf (rep.ok.maxbits.symm ▸ short : pfx.bitlen ≤ t.maxbits)
    inclusive with ⟨none, search⟩ | ⟨e, z, hit, search, found⟩
  · exact .inl ⟨by rw [none]; rfl, search⟩
  · exact .inr ⟨e, z, by rw [hit]; rfl, search, found⟩

/-- A call succeeds and does to the tree what it does to the map. -/
theorem Represents.step {inetPton6 : List Byte → Option (Bytes 16)} {c : TreeCall α}
    (rep : Represents t map) (fits : c.Fits inetPton6)
    : ∃ after, treeStep inetPton6 t c = .ok after
        ∧ Represents after (c.effect inetPton6 map) := by
  have removes {e : Prefix × α} {z : Loc α} (found : z.Holds e ∧ LocOk z ∧ z.head = t.head)
      : ∃ after, libraryCall (patriciaRemove t z) = .ok after
          ∧ Represents after (LongestPrefix.erase map e.1.key) := by
    obtain ⟨after, done, rep'⟩ := rep.remove found.1 found.2.1 found.2.2
    exact ⟨after, libraryCall_eq_ok.mpr done, rep'⟩
  cases c with
  | store pfx d =>
      obtain ⟨after, z, done, rep'⟩ := rep.store fits d
      exact ⟨_, bind_eq_ok.mpr ⟨_, libraryCall_eq_ok.mpr done, rfl⟩, rep'⟩
  | lookupThenRemove afi string =>
      obtain ⟨pfx, parsed⟩ := fits
      have tried : trySearchExact inetPton6 t afi string = patriciaSearchExact t pfx := by
        rw [trySearchExact, parsed]
        rfl
      simp only [treeStep, lookupThenRemove, tried, TreeCall.effect, parsed]
      rcases rep.searchExact (Control.ascii2prefix_valid parsed).bitlen_le
        with ⟨none, search⟩ | ⟨e, z, stored, key, search, found⟩
      · refine ⟨t, by rw [search]; rfl, ?_⟩
        rw [LongestPrefix.erase, ← none, Function.update_eq_self]
        exact rep
      · rw [search, ← key]
        exact removes found
  | removeBest pfx inclusive =>
      simp only [treeStep, TreeCall.effect]
      rcases rep.searchBest2 fits inclusive with ⟨none, search⟩ | ⟨e, z, hit, search, found⟩
      · rw [none, search]
        exact ⟨t, rfl, rep⟩
      · rw [hit, search]
        exact removes found

end

-----------------------------------------------------------------------------------------
-- Runs
-----------------------------------------------------------------------------------------

/-- The calls of a run succeed, and the tree stands for the map that they build; by induction on
the calls.
-/
theorem run_represents {inetPton6 : List Byte → Option (Bytes 16)} {calls : List (TreeCall α)}
    (fits : ∀ c ∈ calls, c.Fits inetPton6) {t : PatriciaTree α} {map : Store Bool α}
    (rep : Represents t map)
    : ∃ after, run (treeStep inetPton6) t calls = .ok after
        ∧ Represents after (calls.foldl (TreeCall.effect inetPton6) map) := by
  induction calls generalizing t map with
  | nil => exact ⟨t, rfl, rep⟩
  | cons c rest ih =>
      obtain ⟨next, first, rep'⟩ := rep.step (fits c List.mem_cons_self)
      obtain ⟨after, done, rep''⟩ := ih (fun c mem => fits c (List.mem_cons_of_mem _ mem)) rep'
      exact ⟨after, EventRuns.run_cons_eq_ok.mpr ⟨next, first, done⟩, rep''⟩

/-- Whatever calls a tree has gone through, it answers like the map that they build: the exact
search like the map itself, and the best search with the longest key that covers the prefix, the
prefix's own key counted or not. `num_active_node` is the number of nodes, less than twice the
number of keys.
-/
theorem treeRun_answers {inetPton6 : List Byte → Option (Bytes 16)} {calls : List (TreeCall α)}
    (fits : ∀ c ∈ calls, c.Fits inetPton6)
    : ∃ (t : PatriciaTree α) (map : Store Bool α) (keys : List (List Bool)),
        run (treeStep inetPton6) (newPatricia 128) calls = .ok t
        ∧ map = calls.foldl (TreeCall.effect inetPton6) (fun _ => none)
        ∧ (∀ pfx : Prefix, pfx.bitlen ≤ 128
          → (∃ hit, patriciaSearchExact t pfx = .ok hit
              ∧ hit.bind Loc.found = (map pfx.key).map (pfx.key, ·))
            ∧ ∀ inclusive, ∃ hit, patriciaSearchBest2 t pfx inclusive = .ok hit
              ∧ hit.bind Loc.found = best2 map pfx.key inclusive)
        ∧ keys.Nodup ∧ (∀ key, key ∈ keys ↔ (map key).isSome)
        ∧ t.numActiveNode = t.head.size ∧ t.head.size ≤ 2 * keys.length - 1 := by
  obtain ⟨t, done, rep⟩ := run_represents fits represents_newPatricia
  refine ⟨t, _, t.head.entries.map (·.1.key), done, rfl, ?_, rep.ok.wf.keys_nodup, ?_,
    rep.counted, ?_⟩
  · intro pfx short
    constructor
    · rcases rep.searchExact short with ⟨none, search⟩ | ⟨e, z, stored, key, search, holds, _⟩
      · exact ⟨_, search, by rw [none]; rfl⟩
      · exact ⟨_, search, by rw [stored, ← key]; exact holds.found⟩
    · intro inclusive
      rcases rep.searchBest2 short inclusive with ⟨none, search⟩ | ⟨e, z, hit, search, holds, _⟩
      · exact ⟨_, search, by rw [none]; rfl⟩
      · exact ⟨_, search, by rw [hit]; exact holds.found⟩
  · intro key
    rw [rep.at_key, Option.isSome_map, List.mem_map]
    constructor
    · rintro ⟨e, mem, rfl⟩
      rw [rep.ok.wf.store_eq_some_iff.mpr ⟨mem, rfl⟩]
      rfl
    · intro there
      obtain ⟨e, stored⟩ := Option.isSome_iff_exists.mp there
      exact ⟨e, rep.ok.wf.store_eq_some_iff.mp stored⟩
  · rw [List.length_map, ← rep.noOrphans.carriers_length]
    rcases rep.ok.wf with empty | ⟨k, _, rooted⟩
    · rw [empty]
      exact Nat.zero_le _
    · have := rooted.size_le
      omega

/-- 10.0.0.0/8 and 10.1.0.0/16 are stored, and the first is removed again. -/
def twoNetworks : List (TreeCall Nat) :=
  [.store ⟨afInet, 8, 0, ⟨10#8 :: List.replicate 15 0#8, rfl⟩⟩ 1,
    .store ⟨afInet, 16, 0, ⟨10#8 :: 1#8 :: List.replicate 14 0#8, rfl⟩⟩ 2,
    .lookupThenRemove afInet (Control.ascii "10.0.0.0/8")]

theorem twoNetworks_fit : ∀ c ∈ twoNetworks, c.Fits fun _ => none := by
  intro c mem
  rcases List.mem_cons.mp mem with rfl | mem
  · exact .inl ⟨rfl, by decide⟩
  · rcases List.mem_cons.mp mem with rfl | mem
    · exact .inl ⟨rfl, by decide⟩
    · rw [List.mem_singleton.mp mem]
      exact ⟨_, rfl⟩

/-- The tree of the two networks answers like its map. -/
theorem twoNetworks_answers
    : ∃ (t : PatriciaTree Nat) (map : Store Bool Nat) (keys : List (List Bool)),
        run (treeStep fun _ => none) (newPatricia 128) twoNetworks = .ok t
        ∧ (∀ pfx : Prefix, pfx.bitlen ≤ 128 → ∃ hit, patriciaSearchExact t pfx = .ok hit
          ∧ hit.bind Loc.found = (map pfx.key).map (pfx.key, ·))
        ∧ t.numActiveNode = t.head.size ∧ t.head.size ≤ 2 * keys.length - 1 := by
  obtain ⟨t, map, keys, done, _, searches, _, _, counted, few⟩ := treeRun_answers twoNetworks_fit
  exact ⟨t, map, keys, done, fun pfx short => (searches pfx short).1, counted, few⟩

end Lixy
