import Lixy.Daemon.ValidEvents

/-! The two address families in one tree: a search, an update or a delete for a prefix of one
family meets the entries of the other wherever their leading bits agree. When it does not is
said here exactly.
-/

namespace Lixy

open ByteStrings
open LongestPrefix (best)
open EventRuns (run Reachable)

/-- What `search_mapnode` finds, with the prefix it is stored under. -/
def Finds (table : Maptable) (q : Prefix) : Option (Prefix × Mapnode) → Prop
  | none => searchMapnode table q = .ok none
  | some e => ∃ pn, searchMapnode table q = .ok (some (pn, e.2)) ∧ pn.Holds e

/-- Both tables give the same result for `q`, and it is of `q`'s family. -/
def SearchesAlike (left right : Maptable) (q : Prefix) : Prop :=
  ∃ found, Finds left q found ∧ Finds right q found
    ∧ ∀ e, found = some e → e.1.family = q.family

/-- Each entry of another family that covers `q` is shorter than some entry of its own. -/
def OwnFamilyWins (table : Maptable) (q : Prefix) : Prop :=
  ∀ other ∈ table.entries, other.1.family ≠ q.family → other.1.key <+: q.key
    → ∃ own ∈ table.entries, own.1.family = q.family ∧ own.1.key <+: q.key
        ∧ other.1.bitlen < own.1.bitlen

/-- No entry of another family than `family` is changed or removed. -/
def KeepsOthers (before after : Maptable) (family : Nat) : Prop :=
  ∀ e ∈ before.entries, e.1.family ≠ family → e ∈ after.entries

-----------------------------------------------------------------------------------------
-- Searches
-----------------------------------------------------------------------------------------

section

variable {table : Maptable} {q : Prefix}

/-- What is found is the best match. -/
theorem finds_iff (ok : TableOk table) (short : q.bitlen ≤ 128)
    {found : Option (Prefix × Mapnode)}
    : Finds table q found ↔ best table.store q.key = found.map (fun e => (e.1.key, e)) := by
  rcases searchMapnode_spec ok short with ⟨none, search⟩ | ⟨e, z, hit, search, holds, _⟩
  · cases found <;> simp [Finds, search, none]
  · cases found with
    | none => simp [Finds, search, hit]
    | some e' =>
        simp only [Finds, search, hit, Option.map_some, Except.ok.injEq, Option.some.injEq,
          Prod.mk.injEq]
        constructor
        · rintro ⟨pn, ⟨rfl, _⟩, holds'⟩
          obtain ⟨_, _, _, _, node⟩ := holds
          obtain ⟨_, _, _, _, node'⟩ := holds'
          obtain ⟨_, _, pfx, data, _⟩ := PatriciaNode.node.inj (node.symm.trans node')
          obtain rfl : e = e' := Prod.ext (Option.some.inj pfx) (Option.some.inj data)
          exact ⟨rfl, rfl⟩
        · rintro ⟨_, rfl⟩
          exact ⟨z, ⟨rfl, rfl⟩, holds⟩

/-- A covering entry is best when every other one is shorter. -/
theorem best_eq_entry_iff (ok : TableOk table) {e : Prefix × Mapnode}
    : best table.store q.key = some (e.1.key, e)
      ↔ e ∈ table.entries ∧ e.1.key <+: q.key
        ∧ ∀ other ∈ table.entries, other.1.key <+: q.key → other.1.bitlen ≤ e.1.bitlen := by
  rw [LongestPrefix.best_eq_some_iff]
  constructor
  · rintro ⟨covers, stored, longest⟩
    refine ⟨(ok.store_eq_some_iff.mp stored).1, covers, fun other mem above => ?_⟩
    have le := longest other.1.key above (by simp [ok.store_self mem])
    simpa using le
  · rintro ⟨mem, covers, longest⟩
    refine ⟨covers, ok.store_self mem, fun key above there => ?_⟩
    obtain ⟨other, stored⟩ := Option.isSome_iff_exists.mp there
    obtain ⟨mem', rfl⟩ := ok.store_eq_some_iff.mp stored
    simpa using longest other mem' above

theorem best_eq_none_entry_iff (ok : TableOk table)
    : best table.store q.key = none ↔ ∀ e ∈ table.entries, ¬ e.1.key <+: q.key := by
  rw [LongestPrefix.best_eq_none_iff]
  constructor
  · intro none e mem covers
    cases (none _ covers).symm.trans (ok.store_self mem)
  · intro none key covers
    cases stored : table.store key with
    | none => rfl
    | some e =>
        obtain ⟨mem, rfl⟩ := ok.store_eq_some_iff.mp stored
        exact absurd covers (none e mem)

/-- The own family wins when nothing covers the prefix, or an entry of its family does best. -/
theorem ownFamilyWins_iff (ok : TableOk table)
    : OwnFamilyWins table q
      ↔ ∀ e, best table.store q.key = some (e.1.key, e) → e.1.family = q.family := by
  constructor
  · intro wins e found
    obtain ⟨mem, covers, longest⟩ := (best_eq_entry_iff ok).mp found
    by_contra foreign
    obtain ⟨own, mem', _, covers', longer⟩ := wins e mem foreign covers
    exact absurd (longest own mem' covers') (by omega)
  · intro own other mem foreign covers
    cases found : best table.store q.key with
    | none => exact absurd covers ((best_eq_none_entry_iff ok).mp found other mem)
    | some hit =>
        obtain ⟨key, e⟩ := hit
        obtain ⟨mem', rfl⟩ :=
          ok.store_eq_some_iff.mp (LongestPrefix.best_eq_some_iff.mp found).stored
        obtain ⟨_, covers', longest⟩ := (best_eq_entry_iff ok).mp found
        have family := own e found
        refine ⟨e, mem', family, covers', Nat.lt_of_le_of_ne (longest other mem covers) ?_⟩
        intro same
        have keys := LongestPrefix.eq_of_covers covers covers' (by simpa using same)
        obtain rfl := ok.wf.entry_unique mem mem' keys
        exact foreign family

end

/-- A best match of the own family is best in every table with the same entries of that
family, as long as its own family wins there.
-/
theorem best_transfer {left right : Maptable} {q : Prefix} (okLeft : TableOk left)
    (okRight : TableOk right)
    (same : ∀ e, e.1.family = q.family → (e ∈ left.entries ↔ e ∈ right.entries))
    (winsLeft : OwnFamilyWins left q) (winsRight : OwnFamilyWins right q)
    : best left.store q.key = best right.store q.key := by
  have own := (ownFamilyWins_iff okRight).mp winsRight
  cases found : best right.store q.key with
  | none =>
      rw [best_eq_none_entry_iff okLeft]
      intro e mem covers
      have none := (best_eq_none_entry_iff okRight).mp found
      by_cases family : e.1.family = q.family
      · exact none e ((same e family).mp mem) covers
      · obtain ⟨e', mem', family', covers', _⟩ := winsLeft e mem family covers
        exact none e' ((same e' family').mp mem') covers'
  | some hit =>
      obtain ⟨key, e⟩ := hit
      obtain ⟨_, rfl⟩ :=
        okRight.store_eq_some_iff.mp (LongestPrefix.best_eq_some_iff.mp found).stored
      obtain ⟨mem, covers, longest⟩ := (best_eq_entry_iff okRight).mp found
      have family := own e found
      refine (best_eq_entry_iff okLeft).mpr ⟨(same e family).mpr mem, covers, ?_⟩
      intro other mem' covers'
      by_cases family' : other.1.family = q.family
      · exact longest other ((same other family').mp mem') covers'
      · obtain ⟨longer, mem'', family'', covers'', lt⟩ := winsLeft other mem' family' covers'
        have le := longest longer ((same longer family'').mp mem'') covers''
        omega

/-- Two tables with the same entries of a family search alike for it exactly when that family
wins in both.
-/
theorem searchesAlike_iff {left right : Maptable} {q : Prefix} (okLeft : TableOk left)
    (okRight : TableOk right) (short : q.bitlen ≤ 128)
    (same : ∀ e, e.1.family = q.family → (e ∈ left.entries ↔ e ∈ right.entries))
    : SearchesAlike left right q ↔ OwnFamilyWins left q ∧ OwnFamilyWins right q := by
  constructor
  · rintro ⟨found, hl, hr, family⟩
    rw [finds_iff okLeft short] at hl
    rw [finds_iff okRight short] at hr
    have wins {table : Maptable} (hit : best table.store q.key = found.map (fun e => (e.1.key, e)))
        (e : Prefix × Mapnode) (best_e : best table.store q.key = some (e.1.key, e))
        : e.1.family = q.family := by
      cases found with
      | none => cases hit.symm.trans best_e
      | some e' =>
          obtain rfl : e' = e := (Prod.mk.inj (Option.some.inj (hit.symm.trans best_e))).2
          exact family e' rfl
    exact ⟨(ownFamilyWins_iff okLeft).mpr (wins hl), (ownFamilyWins_iff okRight).mpr (wins hr)⟩
  · rintro ⟨winsLeft, winsRight⟩
    have transfer := best_transfer okLeft okRight same winsLeft winsRight
    have own := (ownFamilyWins_iff okRight).mp winsRight
    cases found : best right.store q.key with
    | none =>
        rw [found] at transfer
        exact ⟨none, (finds_iff okLeft short).mpr transfer, (finds_iff okRight short).mpr found,
          nofun⟩
    | some hit =>
        obtain ⟨key, e⟩ := hit
        obtain ⟨_, rfl⟩ :=
          okRight.store_eq_some_iff.mp (LongestPrefix.best_eq_some_iff.mp found).stored
        rw [found] at transfer
        refine ⟨some e, (finds_iff okLeft short).mpr transfer,
          (finds_iff okRight short).mpr found, ?_⟩
        rintro _ ⟨⟩
        exact own e found

-----------------------------------------------------------------------------------------
-- Updates and deletes
-----------------------------------------------------------------------------------------

/-- An update changes an entry of another family exactly when one that may be replaced, with
another mapnode, is stored under the same leading bits.
-/
theorem updateMapnode_keepsOthers_iff {table after : Maptable} {pfx : Prefix} {node : Mapnode}
    {stored : Bool} (ok : TableOk table) (valid : pfx.Valid)
    (done : updateMapnode table pfx node = .ok (after, stored))
    : KeepsOthers table after pfx.family
      ↔ ¬ ∃ e ∈ table.entries, e.1.family ≠ pfx.family ∧ e.1.key = pfx.key
          ∧ e.2.state ≠ .static ∧ e.2 ≠ node := by
  obtain ⟨ok', updated⟩ := updateMapnode_spec ok valid.storable done
  have known := refPrefix_isSome valid.family
  cases updated with
  | refused there static same =>
      subst same
      refine iff_of_true (fun e mem _ => mem) ?_
      rintro ⟨e, mem, _, key, movable, _⟩
      have own := ok.store_eq_some_iff.mpr ⟨mem, key⟩
      obtain rfl := Option.some.inj (there.symm.trans own)
      exact movable static
  | orphaned unknown _ _ => rw [unknown] at known; cases known
  | @stored kept stores replaces =>
      have store : after.store = LongestPrefix.insert table.store pfx.key (kept, node) :=
        stores.store
      constructor
      · rintro keeps ⟨e, mem, foreign, key, _, other⟩
        have still := ok'.store_self (keeps e mem foreign)
        rw [key, store, LongestPrefix.insert_self] at still
        exact other (congrArg Prod.snd (Option.some.inj still)).symm
      · intro none e mem foreign
        by_cases key : e.1.key = pfx.key
        · have own : table.store pfx.key = some e := ok.store_eq_some_iff.mpr ⟨mem, key⟩
          have equal : e.2 = node := by
            by_contra other
            exact none ⟨e, mem, foreign, key, replaces e own, other⟩
          have here : after.store pfx.key = some e := by
            rw [store, LongestPrefix.insert_self, stores.old e own, ← equal]
          exact (ok'.store_eq_some_iff.mp here).1
        · have here : after.store e.1.key = some e := by
            rw [store, LongestPrefix.insert_of_ne _ _ key, ok.store_self mem]
          exact (ok'.store_eq_some_iff.mp here).1

/-- A static install changes an entry of another family exactly when one that may be replaced
is stored under the same leading bits.
-/
theorem installMapnodeStatic_keepsOthers_iff {lisp lisp' : Lisp} {pfx : Prefix}
    {addr : SockaddrStorage} (ok : TableOk lisp.rib) (valid : pfx.Valid)
    (done : installMapnodeStatic lisp pfx addr = .ok lisp')
    : KeepsOthers lisp.rib lisp'.rib pfx.family
      ↔ ¬ ∃ e ∈ lisp.rib.entries, e.1.family ≠ pfx.family ∧ e.1.key = pfx.key
          ∧ e.2.state ≠ .static := by
  obtain ⟨⟨rib, stored⟩, update, rest⟩ := bind_eq_ok.mp done
  have after : lisp'.rib = rib := by
    cases stored with
    | false =>
        obtain rfl := pure_eq_ok.mp rest
        rfl
    | true =>
        obtain rfl := pure_eq_ok.mp rest
        exact addRouteToTun_rib pfx _
  rw [after, updateMapnode_keepsOthers_iff ok valid update, not_iff_not]
  constructor
  · rintro ⟨e, mem, foreign, key, movable, _⟩
    exact ⟨e, mem, foreign, key, movable⟩
  · rintro ⟨e, mem, foreign, key, movable⟩
    refine ⟨e, mem, foreign, key, movable, ?_⟩
    rintro same
    rw [same] at movable
    exact movable rfl

/-- A static delete removes an entry of another family exactly when its prefix's best match is
one, and is neither ACTIVE nor QUERIED.
-/
theorem uninstallMapnodeStatic_keepsOthers_iff {lisp lisp' : Lisp} {pfx : Prefix}
    {removed : Bool} (ok : TableOk lisp.rib) (short : pfx.bitlen ≤ 128)
    (done : uninstallMapnodeStatic lisp pfx = .ok (lisp', removed))
    : KeepsOthers lisp.rib lisp'.rib pfx.family
      ↔ ¬ ∃ e, Finds lisp.rib pfx (some e) ∧ e.1.family ≠ pfx.family
          ∧ e.2.state ≠ .active ∧ e.2.state ≠ .queried := by
  have finds {e : Prefix × Mapnode}
      : Finds lisp.rib pfx (some e) ↔ best lisp.rib.store pfx.key = some (e.1.key, e) :=
    finds_iff ok short
  have unremoved {e : Prefix × Mapnode} (found : best lisp.rib.store pfx.key = some (e.1.key, e))
      (keeps : ¬ (e.2.state ≠ .active ∧ e.2.state ≠ .queried))
      : ¬ ∃ e, Finds lisp.rib pfx (some e) ∧ e.1.family ≠ pfx.family
          ∧ e.2.state ≠ .active ∧ e.2.state ≠ .queried := by
    rintro ⟨e', hit, _, state⟩
    obtain rfl : e = e' := (Prod.mk.inj (Option.some.inj (found.symm.trans (finds.mp hit)))).2
    exact keeps state
  rw [uninstallMapnodeStatic] at done
  rcases searchMapnode_spec ok short with ⟨none, search⟩ | ⟨e, z, found, search, _⟩
  · rw [search] at done
    obtain ⟨rfl, _⟩ := Prod.mk.inj (Except.ok.inj done)
    refine iff_of_true (fun e mem _ => mem) ?_
    rintro ⟨e, hit, _⟩
    cases none.symm.trans (finds.mp hit)
  · rw [search] at done
    simp only [bind, Except.bind] at done
    split at done
    · next state =>
        obtain ⟨rfl, _⟩ := Prod.mk.inj (Except.ok.inj done)
        exact iff_of_true (fun e mem _ => mem) (unremoved found (by grind))
    · next state =>
        rw [not_or] at state
        split at done
        · cases done
        · next result deletion =>
            obtain ⟨rib, mn⟩ := result
            obtain ⟨rfl, _⟩ := Prod.mk.inj (Except.ok.inj done)
            obtain ⟨ok', _, none | ⟨e', found', store⟩⟩ := deleteMapnode_spec ok short deletion
            · cases found.symm.trans none.1
            · obtain rfl : e = e' := (Prod.mk.inj (Option.some.inj (found.symm.trans found'))).2
              have mem := ((best_eq_entry_iff ok).mp found).1
              constructor
              · rintro keeps ⟨e', hit, foreign, _⟩
                obtain rfl : e = e' :=
                  (Prod.mk.inj (Option.some.inj (found.symm.trans (finds.mp hit)))).2
                have still := ok'.store_self (keeps e mem foreign)
                rw [store, LongestPrefix.erase_self] at still
                cases still
              · intro none other mem' foreign
                have ne : other.1.key ≠ e.1.key := by
                  intro key
                  obtain rfl := ok.wf.entry_unique mem' mem key
                  exact none ⟨other, finds.mpr found, foreign, state⟩
                have here : rib.store other.1.key = some other := by
                  rw [store, LongestPrefix.erase_of_ne _ ne, ok.store_self mem']
                exact (ok'.store_eq_some_iff.mp here).1

-----------------------------------------------------------------------------------------
-- Isolation
-----------------------------------------------------------------------------------------

/-- For two reached tables with the same entries of a prefix's family: they search alike for
it, with a result of that family, exactly when its own family wins in both; and what an
update, a static install and a static delete for it do to the other family is said exactly.
Witness: a search finds the longest covering entry, a delete removes that, an update writes
under the same leading bits.
-/
theorem families_apart_iff {left right : Lisp} {q : Prefix}
    (reachedLeft : Reachable step Lisp.start left)
    (reachedRight : Reachable step Lisp.start right) (valid : q.Valid)
    (same : ∀ e, e.1.family = q.family → (e ∈ left.rib.entries ↔ e ∈ right.rib.entries))
    : (SearchesAlike left.rib right.rib q ↔ OwnFamilyWins left.rib q ∧ OwnFamilyWins right.rib q)
      ∧ (∀ node after stored, updateMapnode left.rib q node = .ok (after, stored)
          → (KeepsOthers left.rib after q.family
              ↔ ¬ ∃ e ∈ left.rib.entries, e.1.family ≠ q.family ∧ e.1.key = q.key
                  ∧ e.2.state ≠ .static ∧ e.2 ≠ node))
      ∧ (∀ addr after, installMapnodeStatic left q addr = .ok after
          → (KeepsOthers left.rib after.rib q.family
              ↔ ¬ ∃ e ∈ left.rib.entries, e.1.family ≠ q.family ∧ e.1.key = q.key
                  ∧ e.2.state ≠ .static))
      ∧ (∀ after removed, uninstallMapnodeStatic left q = .ok (after, removed)
          → (KeepsOthers left.rib after.rib q.family
              ↔ ¬ ∃ e, Finds left.rib q (some e) ∧ e.1.family ≠ q.family
                  ∧ e.2.state ≠ .active ∧ e.2.state ≠ .queried)) := by
  have okLeft := tableOk_of_reachable reachedLeft
  have okRight := tableOk_of_reachable reachedRight
  refine ⟨searchesAlike_iff okLeft okRight valid.bitlen_le same, ?_, ?_, ?_⟩
  · intro node after stored done
    exact updateMapnode_keepsOthers_iff okLeft valid done
  · intro addr after done
    exact installMapnodeStatic_keepsOthers_iff okLeft valid done
  · intro after removed done
    exact uninstallMapnodeStatic_keepsOthers_iff okLeft valid.bitlen_le done

/-- The destination 2001:db8::/32. -/
def docNet : Destination :=
  { family := afInet6, address := ⟨[0x20, 0x01, 0x0d, 0xb8] ++ List.replicate 12 0, rfl⟩
    bitlen := some 32 }

/-- The destination 0a00::/8. -/
def tenSix : Destination :=
  { family := afInet6, address := ⟨0x0a :: List.replicate 15 0, rfl⟩, bitlen := some 8 }

/-- The host prefix of 10.0.0.1. -/
def tenHost : Prefix :=
  { family := afInet, bitlen := 32, refCount := 0, add := setSin (inAddr 10 0 0 1) (zeros 16) }

/-- The destination 0a80::/9. -/
def nineSix : Destination :=
  { family := afInet6, address := ⟨[0x0a, 0x80] ++ List.replicate 14 0, rfl⟩, bitlen := some 9 }

/-- Beside routes for 2001:db8::/32 and 0a80::/9, the route for 10.0.0.0/8 that both tables hold
answers the search for 10.0.0.1 alike, and what is stored and deleted there leaves them alone.
-/
theorem docNet_apart
    : ∃ alone mixed, run step Lisp.start [.installRoute tenNet .zero] = .ok alone
        ∧ run step Lisp.start
            [.installRoute docNet .zero, .installRoute tenNet .zero, .installRoute nineSix .zero]
          = .ok mixed
        ∧ (∃ pn mn, searchMapnode alone.rib tenHost = .ok (some (pn, mn)) ∧ mn.state = .static)
        ∧ SearchesAlike mixed.rib alone.rib tenHost
        ∧ (∃ after, updateMapnode mixed.rib tenHost .zero = .ok (after, true)
          ∧ KeepsOthers mixed.rib after afInet)
        ∧ ∃ after, uninstallMapnodeStatic mixed tenHost = .ok (after, true)
          ∧ KeepsOthers mixed.rib after.rib afInet := by
  obtain ⟨alone, mixed, stored, deleted, done, done', search, update, delete, shared, covers⟩
      : ∃ alone mixed stored deleted, run step Lisp.start [.installRoute tenNet .zero] = .ok alone
        ∧ run step Lisp.start
            [.installRoute docNet .zero, .installRoute tenNet .zero, .installRoute nineSix .zero]
          = .ok mixed
        ∧ (∃ pn mn, searchMapnode alone.rib tenHost = .ok (some (pn, mn)) ∧ mn.state = .static)
        ∧ updateMapnode mixed.rib tenHost .zero = .ok (stored, true)
        ∧ uninstallMapnodeStatic mixed tenHost = .ok (deleted, true)
        ∧ (mixed.rib.entries.filter (·.1.family = afInet) = alone.rib.entries
          ∧ ∀ e ∈ alone.rib.entries, e.1.family = afInet)
        ∧ ∀ e ∈ mixed.rib.entries, e.1.key <+: tenHost.key → e.1.family = afInet :=
    ⟨_, _, _, _, rfl, rfl, ⟨_, _, rfl, rfl⟩, rfl, rfl, ⟨rfl, by decide⟩, by decide⟩
  have same (e : Prefix × Mapnode) (own : e.1.family = tenHost.family)
      : e ∈ mixed.rib.entries ↔ e ∈ alone.rib.entries := by
    rw [← shared.1, List.mem_filter]
    exact (and_iff_left (decide_eq_true own)).symm
  have reachable : Reachable step Lisp.start mixed := ⟨_, done'⟩
  have ok := tableOk_of_reachable reachable
  obtain ⟨searches, updates, _, deletes⟩ :=
    families_apart_iff reachable ⟨_, done⟩ (by decide : tenHost.Valid) same
  refine ⟨alone, mixed, done, done', search, searches.mpr ⟨?_, ?_⟩,
    ⟨stored, update, (updates _ _ _ update).mpr ?_⟩,
    ⟨deleted, delete, (deletes _ _ delete).mpr ?_⟩⟩
  · exact fun other mem foreign above => absurd (covers other mem above) foreign
  · exact fun other mem foreign _ => absurd (shared.2 other mem) foreign
  · rintro ⟨e, mem, foreign, key, _⟩
    exact foreign (covers e mem (key ▸ List.prefix_rfl))
  · rintro ⟨e, found, foreign, _⟩
    obtain ⟨mem, above, _⟩ := (best_eq_entry_iff ok).mp ((finds_iff ok (by decide)).mp found)
    exact foreign (covers e mem above)

/-- A route for 0a00::/8 answers the search for 10.0.0.1. -/
theorem tenSix_answers_tenHost
    : ¬ ∀ left right q, Reachable step Lisp.start left → Reachable step Lisp.start right
        → q.Valid → (∀ e, e.1.family = q.family → (e ∈ left.rib.entries ↔ e ∈ right.rib.entries))
        → SearchesAlike left.rib right.rib q := by
  intro alike
  obtain ⟨right, done, families, pn, mn, search⟩
      : ∃ right, run step Lisp.start [.installRoute tenSix .zero] = .ok right
          ∧ (∀ e ∈ right.rib.entries, e.1.family = afInet6)
          ∧ ∃ pn mn, searchMapnode right.rib tenHost = .ok (some (pn, mn)) :=
    ⟨_, rfl, by decide, _, _, rfl⟩
  have same (e : Prefix × Mapnode) (own : e.1.family = tenHost.family)
      : e ∈ Lisp.start.rib.entries ↔ e ∈ right.rib.entries := by
    constructor
    · nofun
    · intro mem
      cases own.symm.trans (families e mem)
  obtain ⟨found, hl, hr, _⟩ :=
    alike Lisp.start right tenHost (Reachable.init _) ⟨_, done⟩ (by decide) same
  have start : searchMapnode Lisp.start.rib tenHost = .ok none := rfl
  cases found with
  | none =>
      have missed : searchMapnode right.rib tenHost = .ok none := hr
      cases missed.symm.trans search
  | some e =>
      obtain ⟨_, hit, _⟩ := hl
      cases start.symm.trans hit

end Lixy
