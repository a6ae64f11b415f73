import Mathlib.Data.Set.Insert
import Lixy.MapTable.SweepExactness

/-! The writers of the map table in abstract terms: what each needs to find, and what it
leaves of the stored entries and of the set of routes.
-/

namespace Lixy

open ByteStrings
open LongestPrefix (Store best erase)

-----------------------------------------------------------------------------------------
-- Stored entries and routes
-----------------------------------------------------------------------------------------

/-- The map table and the kernel routes: a partial map of keys and a set. -/
structure View where
  store : Store Bool (Prefix × Mapnode)
  routes : Set Route

/-- The daemon's table and routes. -/
def Lisp.view (lisp : Lisp) : View :=
  { store := lisp.rib.store, routes := {route | route ∈ lisp.routes} }

/-- Store an entry under its own key. -/
def View.put (v : View) (e : Prefix × Mapnode) : View :=
  { v with store := LongestPrefix.insert v.store e.1.key e }

/-- Forget an entry's key. -/
def View.remove (v : View) (e : Prefix × Mapnode) : View :=
  { v with store := erase v.store e.1.key }

/-- Add a route. -/
def View.addRoute (v : View) (route : Route) : View :=
  { v with routes := v.routes ∪ {route} }

/-- Delete a route. -/
def View.delRoute (v : View) (route : Route) : View :=
  { v with routes := v.routes \ {route} }

section

variable (v : View) (e : Prefix × Mapnode) (route : Route)

@[simp]
theorem View.put_store : (v.put e).store = LongestPrefix.insert v.store e.1.key e := rfl

@[simp]
theorem View.put_routes : (v.put e).routes = v.routes := rfl

@[simp]
theorem View.remove_store : (v.remove e).store = erase v.store e.1.key := rfl

@[simp]
theorem View.remove_routes : (v.remove e).routes = v.routes := rfl

@[simp]
theorem View.addRoute_store : (v.addRoute route).store = v.store := rfl

@[simp]
theorem View.addRoute_routes : (v.addRoute route).routes = v.routes ∪ {route} := rfl

@[simp]
theorem View.delRoute_store : (v.delRoute route).store = v.store := rfl

@[simp]
theorem View.delRoute_routes : (v.delRoute route).routes = v.routes \ {route} := rfl

end

-----------------------------------------------------------------------------------------
-- The entry of one prefix
-----------------------------------------------------------------------------------------

/-- The entry stored at exactly a family's leading bits. -/
def entryAt (lisp : Lisp) (family : Nat) (key : List Bool) : Option (Prefix × Mapnode) :=
  (lisp.rib.store key).filter fun e => e.1.family = family

section

variable {lisp lisp' : Lisp} {family : Nat} {key : List Bool} {e : Prefix × Mapnode}

theorem entryAt_eq_some
    : entryAt lisp family key = some e ↔ lisp.rib.store key = some e ∧ e.1.family = family := by
  simp [entryAt, Option.filter_eq_some_iff]

theorem entryAt_congr (same : lisp'.rib.store key = lisp.rib.store key)
    : entryAt lisp' family key = entryAt lisp family key := by
  rw [entryAt, entryAt, same]

/-- Under the same leading bits no entry of another family is stored. -/
theorem entryAt_eq_none (other : ∀ e, lisp.rib.store key = some e → e.1.family ≠ family)
    : entryAt lisp family key = none := by
  cases there : lisp.rib.store key with
  | none => simp [entryAt, there]
  | some e => simp [entryAt, there, other e there]

/-- An entry that is stored in its own family's place, or where nothing was, leaves the entries
of other prefixes.
-/
theorem entryAt_insert {pfx : Prefix}
    (store : lisp'.rib.store = LongestPrefix.insert lisp.rib.store pfx.key e)
    (own : e.1.family = pfx.family)
    (old : ∀ e', lisp.rib.store pfx.key = some e' → e'.1.family = pfx.family)
    : entryAt lisp' pfx.family pfx.key = some e
      ∧ ∀ family key, (family, key) ≠ (pfx.family, pfx.key)
        → entryAt lisp' family key = entryAt lisp family key := by
  have stored : lisp'.rib.store pfx.key = some e := by
    rw [store]
    exact LongestPrefix.insert_self _ _ _
  refine ⟨entryAt_eq_some.mpr ⟨stored, own⟩, fun family key ne => ?_⟩
  by_cases same : key = pfx.key
  · have other : pfx.family ≠ family := fun eq => ne (by rw [eq, same])
    subst same
    rw [entryAt_eq_none fun e' there => ?_, entryAt_eq_none fun e' there => old e' there ▸ other]
    obtain rfl := Option.some.inj (stored.symm.trans there)
    exact own ▸ other
  · refine entryAt_congr ?_
    rw [store, LongestPrefix.insert_of_ne _ _ same]

end

-----------------------------------------------------------------------------------------
-- Routes
-----------------------------------------------------------------------------------------

/-- `add_route_to_tun` adds the prefix's route. -/
theorem view_addRouteToTun (pfx : Prefix) (lisp : Lisp)
    : (addRouteToTun pfx lisp).view = lisp.view.addRoute pfx.route := by
  unfold addRouteToTun
  split
  · next present =>
      have same : lisp.view.routes ∪ {pfx.route} = lisp.view.routes :=
        Set.union_eq_left.mpr (Set.singleton_subset_iff.mpr present)
      simp only [View.addRoute, same]
  · simp only [View.addRoute, Lisp.view, View.mk.injEq, true_and]
    ext route
    simp [or_comm]

/-- `del_route_to_tun` deletes the prefix's route. -/
theorem view_delRouteToTun (pfx : Prefix) (lisp : Lisp)
    : (delRouteToTun pfx lisp).view = lisp.view.delRoute pfx.route := by
  simp only [View.delRoute, Lisp.view, delRouteToTun, View.mk.injEq, true_and]
  ext route
  simp

@[simp]
theorem view_sendMapRequest (pfx : Prefix) (lisp : Lisp)
    : (sendMapRequest pfx lisp).view = lisp.view := rfl

/-- The routes of a valid prefix and its key determine each other within a family. -/
theorem Prefix.Valid.key_of_route {p q : Prefix} (hp : p.Valid) (same : p.route = q.route)
    : p.key = q.key := by
  simp only [Prefix.route, Route.mk.injEq] at same
  obtain ⟨family, dst, bitlen⟩ := same
  rw [Prefix.key, Prefix.key, ← bitlen]
  rcases hp with ⟨inet, short⟩ | ⟨inet6, _⟩
  · rw [if_pos inet, if_pos (family ▸ inet)] at dst
    rw [← setSin_self p.add, ← setSin_self q.add, List.Vector.eq _ _ dst]
    exact bits_setSin _ _ _ short
  · have other : p.family ≠ afInet := by rw [inet6]; decide
    rw [if_neg other, if_neg (family ▸ other)] at dst
    rw [dst]

/-- `Ref_Prefix` keeps the route. -/
theorem refPrefix_route {pfx copy : Prefix} (h : refPrefix pfx = some copy)
    : copy.route = pfx.route := by
  unfold refPrefix at h
  split at h
  · unfold newPrefix at h
    split at h
    · next inet =>
        obtain rfl := Option.some.inj h
        simp [Prefix.route, inet, sin_setSin]
    · split at h
      · obtain rfl := Option.some.inj h
        rfl
      · cases h
  · obtain rfl := Option.some.inj h
    rfl

-----------------------------------------------------------------------------------------
-- Writers
-----------------------------------------------------------------------------------------

/-- One change of the table or the routes, with the entry it is about. -/
inductive Writer
  /-- A refusal, or a step on orphans only. -/
  | idle
  /-- A route for a prefix that has no entry: a positive record of an unknown family. -/
  | stray (pfx : Prefix)
  /-- A positive record whose prefix nothing covers. -/
  | learn (pfx : Prefix) (e : Prefix × Mapnode)
  /-- A positive record whose prefix `e` covers best. -/
  | refresh (e : Prefix × Mapnode)
  /-- A negative record. -/
  | deny (pfx : Prefix) (e : Prefix × Mapnode)
  /-- An observed packet whose destination nothing covers. -/
  | query (pfx : Prefix) (e : Prefix × Mapnode)
  /-- A static install. -/
  | pin (pfx : Prefix) (e : Prefix × Mapnode)
  /-- A static delete that finds `e`. -/
  | unpin (pfx : Prefix) (e : Prefix × Mapnode)
  /-- A visit of the TTL sweep. -/
  | age (e : Prefix × Mapnode)

/-- What `update_mapnode` stores for `pfx`: a copy of the prefix where nothing is stored,
the old prefix where a movable entry is.
-/
structure View.Puts (v : View) (pfx : Prefix) (e : Prefix × Mapnode) : Prop where
  key : e.1.key = pfx.key
  movable : ∀ old, v.store pfx.key = some old → old.2.state ≠ .static
  old : ∀ old, v.store pfx.key = some old → e.1 = old.1
  fresh : v.store pfx.key = none → refPrefix pfx = some e.1

/-- What is put has a valid prefix when what it replaces had one, or else the prefix it is
put for.
-/
theorem View.Puts.valid {v : View} {pfx : Prefix} {e : Prefix × Mapnode} (h : v.Puts pfx e)
    (old : ∀ old, v.store pfx.key = some old → old.1.Valid)
    (fresh : v.store pfx.key = none → pfx.Valid)
    : e.1.Valid := by
  cases stored : v.store pfx.key with
  | none =>
      have valid := fresh stored
      obtain ⟨family, bitlen, _⟩ := refPrefix_eq_some (h.fresh stored) valid.copyable
      rw [Prefix.Valid, family, bitlen]
      exact valid
  | some there =>
      rw [h.old there stored]
      exact old there stored

/-- What a writer finds. -/
def Writer.Enabled (v : View) : Writer → Prop
  | idle => True
  | stray pfx => refPrefix pfx = none
  | learn pfx e => v.Puts pfx e ∧ best v.store pfx.key = none ∧ e.2.state = .active
  | refresh e => v.store e.1.key = some e
  | deny pfx e => v.Puts pfx e ∧ (e.2.state = .negative ∨ e.2.state = .drop)
  | query pfx e => v.Puts pfx e ∧ best v.store pfx.key = none ∧ e.2.state = .queried
  | pin pfx e => v.Puts pfx e ∧ e.2.state = .static
  | unpin pfx e =>
      best v.store pfx.key = some (e.1.key, e)
        ∧ e.2.state ≠ .active ∧ e.2.state ≠ .queried
  | age e => v.store e.1.key = some e

/-- What a writer leaves. -/
def Writer.write (v : View) : Writer → View
  | idle => v
  | stray pfx => v.addRoute pfx.route
  | learn pfx e => (v.put e).addRoute pfx.route
  | refresh e => v.put (e.1, { e.2 with ttl := mapttlDefault })
  | deny _ e => v.put e
  | query _ e => v.put e
  | pin pfx e => (v.put e).addRoute pfx.route
  | unpin pfx e => (v.remove e).delRoute pfx.route
  | age e =>
      if e.2.state = .static then
        v
      else if e.2.expires then
        if e.2.state = .active then (v.remove e).delRoute e.1.route else v.remove e
      else
        v.put (e.1, e.2.aged)

/-- A run of writers, each enabled where it writes. -/
def Writes : View → List Writer → View → Prop
  | v, [], v' => v' = v
  | v, w :: rest, v' => w.Enabled v ∧ Writes (w.write v) rest v'

/-- One enabled writer is a run. -/
theorem Writes.single {v : View} {w : Writer} (h : w.Enabled v) : Writes v [w] (w.write v) :=
  ⟨h, rfl⟩

/-- Runs of writers compose, by induction on the first. -/
theorem Writes.append {v middle v' : View} {ws more : List Writer} (h : Writes v ws middle)
    (next : Writes middle more v')
    : Writes v (ws ++ more) v' := by
  induction ws generalizing v with
  | nil =>
      obtain rfl : middle = v := h
      exact next
  | cons w rest ih => exact ⟨h.1, ih h.2⟩

/-- What every writer of a kind keeps, a run of such writers keeps. -/
theorem Writes.invariant {Inv : View → Prop} {kind : Writer → Prop} {v v' : View}
    {ws : List Writer} (h : Writes v ws v') (kinds : ∀ w ∈ ws, kind w)
    (keeps : ∀ v w, Inv v → kind w → w.Enabled v → Inv (w.write v)) (start : Inv v)
    : Inv v' := by
  induction ws generalizing v with
  | nil =>
      obtain rfl : v' = v := h
      exact start
  | cons w rest ih =>
      exact ih h.2 (fun w hw => kinds w (List.mem_cons_of_mem _ hw))
        (keeps v w start (kinds w (by simp)) h.1)

-----------------------------------------------------------------------------------------
-- The operations of maptable.c as writers
-----------------------------------------------------------------------------------------

/-- `update_mapnode` refuses, leaves an orphan, or puts an entry for the prefix. -/
theorem updateMapnode_puts {table after : Maptable} {pfx : Prefix} {node : Mapnode}
    {stored : Bool} (routes : Set Route) (ok : TableOk table) (storable : pfx.Storable)
    (done : updateMapnode table pfx node = .ok (after, stored))
    : TableOk after
      ∧ (table.NoOrphans → (refPrefix pfx).isSome → after.NoOrphans)
      ∧ ((stored = false ∧ after = table
            ∧ ∃ e, table.store pfx.key = some e ∧ e.2.state = .static)
        ∨ (stored = true ∧ refPrefix pfx = none ∧ after.store = table.store)
        ∨ ∃ e, stored = true ∧ e.2 = node
            ∧ View.Puts { store := table.store, routes } pfx e
            ∧ after.store = LongestPrefix.insert table.store e.1.key e) := by
  obtain ⟨ok', updated⟩ := updateMapnode_spec ok storable done
  refine ⟨ok', fun clean known =>
    (updateMapnode_noOrphans ok storable clean done).mpr (Or.inl known), ?_⟩
  cases updated with
  | refused there static same => exact Or.inl ⟨rfl, same, _, there, static⟩
  | orphaned unknown _ same => exact Or.inr (Or.inl ⟨rfl, unknown, same⟩)
  | @stored kept stores replaces =>
      refine Or.inr (Or.inr ⟨(kept, node), rfl, rfl, ?_, ?_⟩)
      · exact { key := stores.key, movable := replaces, old := stores.old, fresh := stores.new }
      · have put : after.store = LongestPrefix.insert table.store pfx.key (kept, node) :=
          stores.store
        rw [put, ← stores.key]

/-- The visit of an entry in the sweep is the writer that ages it. -/
theorem visit_age (v : SweepView) (e : Prefix × Mapnode)
    : View.mk (v.visit e).store {route | route ∈ (v.visit e).routes}
      = (Writer.age e).write { store := v.store, routes := {route | route ∈ v.routes} } := by
  simp only [SweepView.visit, Writer.write]
  split
  · rfl
  · split
    · split
      · simp only [View.delRoute, View.remove, View.mk.injEq, true_and]
        ext route
        simp
      · rfl
    · rfl

/-- Visits of distinct stored entries are a run of writers, by induction on the entries. -/
theorem foldl_visit_writes {es : List (Prefix × Mapnode)} {v : SweepView}
    (keys : (es.map (fun e => e.1.key)).Nodup) (stored : ∀ e ∈ es, v.store e.1.key = some e)
    : Writes { store := v.store, routes := {route | route ∈ v.routes} } (es.map .age)
        { store := (es.foldl SweepView.visit v).store
          routes := {route | route ∈ (es.foldl SweepView.visit v).routes} } := by
  induction es generalizing v with
  | nil => rfl
  | cons e rest ih =>
      rw [List.map_cons, List.nodup_cons, List.mem_map] at keys
      refine ⟨stored e (by simp), ?_⟩
      rw [← visit_age]
      refine ih keys.2 ?_
      intro e' he'
      have apart : ∀ e'' ∈ [e], e''.1.key ≠ e'.1.key := by
        intro e'' he'' same
        obtain rfl := List.mem_singleton.mp he''
        exact keys.1 ⟨e', he', same.symm⟩
      have kept := foldl_visit_other [e] v apart
      rw [List.foldl_cons, List.foldl_nil] at kept
      rw [kept]
      exact stored e' (List.mem_cons_of_mem _ he')

/-- A pass of the TTL thread ages entries one by one. -/
theorem sweep_writes {lisp : Lisp} {w : Walk Lisp} (ok : TableOk lisp.rib)
    (done : sweep lisp = .ok w)
    : TableOk w.st.rib
      ∧ (lisp.rib.NoOrphans → w.st.rib.NoOrphans)
      ∧ Writes lisp.view ((visited lisp.head).map .age) w.st.view := by
  rcases sweep_cases ok with ⟨⟨f, failed⟩, _⟩ | ⟨w', done', ok', orphans, view, _⟩
  · rw [done] at failed
    cases failed
  · obtain rfl : w = w' := Except.ok.inj (done.symm.trans done')
    refine ⟨ok', orphans, ?_⟩
    have run := foldl_visit_writes (v := lisp.sweepView)
      (ok.wf.keys_nodup.sublist ((visited_sublist lisp.head).map _))
      (fun e he => ok.store_self ((visited_sublist lisp.head).subset he))
    rw [← view] at run
    exact run

@[simp]
theorem addRouteToTun_rib (pfx : Prefix) (lisp : Lisp)
    : (addRouteToTun pfx lisp).rib = lisp.rib := by
  unfold addRouteToTun
  split <;> rfl

/-- `install_mapnode_static` leaves a STATIC entry alone, or pins an entry. -/
theorem installMapnodeStatic_cases {lisp lisp' : Lisp} {pfx : Prefix} {addr : SockaddrStorage}
    (ok : TableOk lisp.rib) (valid : pfx.Valid)
    (done : installMapnodeStatic lisp pfx addr = .ok lisp')
    : TableOk lisp'.rib
      ∧ (lisp.rib.NoOrphans → lisp'.rib.NoOrphans)
      ∧ ((lisp'.view = lisp.view ∧ ∃ e, lisp.rib.store pfx.key = some e ∧ e.2.state = .static)
        ∨ ∃ e, (Writer.pin pfx e).Enabled lisp.view
            ∧ lisp'.view = (Writer.pin pfx e).write lisp.view ∧ e.2.addr = addr) := by
  have known : (refPrefix pfx).isSome := refPrefix_isSome valid.family
  simp only [installMapnodeStatic, bind, Except.bind] at done
  split at done
  · cases done
  · next result update =>
      obtain ⟨rib, stored⟩ := result
      obtain ⟨ok', orphans, ⟨rfl, rfl, static⟩ | ⟨_, unknown, _⟩ | ⟨e, rfl, node, puts, store⟩⟩ :=
        updateMapnode_puts lisp.view.routes ok valid.storable update
      · obtain rfl := Except.ok.inj done
        exact ⟨ok', fun clean => orphans clean known, .inl ⟨rfl, static⟩⟩
      · rw [unknown] at known
        cases known
      · obtain rfl := Except.ok.inj done
        rw [addRouteToTun_rib]
        refine ⟨ok', fun clean => orphans clean known, .inr ⟨e, ⟨puts, by rw [node]⟩, ?_,
          by rw [node]⟩⟩
        rw [view_addRouteToTun]
        simp only [Writer.write, View.put, Lisp.view, store]

/-- `install_mapnode_static` pins an entry, unless a STATIC one is there. -/
theorem installMapnodeStatic_writes {lisp lisp' : Lisp} {pfx : Prefix} {addr : SockaddrStorage}
    (ok : TableOk lisp.rib) (valid : pfx.Valid)
    (done : installMapnodeStatic lisp pfx addr = .ok lisp')
    : TableOk lisp'.rib
      ∧ (lisp.rib.NoOrphans → lisp'.rib.NoOrphans)
      ∧ ∃ w : Writer, w.Enabled lisp.view ∧ lisp'.view = w.write lisp.view
          ∧ (w = .idle ∨ ∃ e, w = .pin pfx e ∧ e.2.addr = addr) := by
  obtain ⟨ok', orphans, ⟨same, _⟩ | ⟨e, enabled, view, address⟩⟩ :=
    installMapnodeStatic_cases ok valid done
  · exact ⟨ok', orphans, .idle, trivial, same, .inl rfl⟩
  · exact ⟨ok', orphans, .pin pfx e, enabled, view, .inr ⟨e, rfl, address⟩⟩

/-- `uninstall_mapnode_static` reports a failure and changes nothing, or it unpins the best
match.
-/
theorem uninstallMapnodeStatic_cases {lisp lisp' : Lisp} {pfx : Prefix} {removed : Bool}
    (ok : TableOk lisp.rib) (short : pfx.bitlen ≤ 128)
    (done : uninstallMapnodeStatic lisp pfx = .ok (lisp', removed))
    : TableOk lisp'.rib
      ∧ (lisp.rib.NoOrphans → lisp'.rib.NoOrphans)
      ∧ ((removed = false ∧ lisp' = lisp)
        ∨ (removed = true ∧ ∃ e, (Writer.unpin pfx e).Enabled lisp.view
            ∧ lisp'.view = (Writer.unpin pfx e).write lisp.view)) := by
  rw [uninstallMapnodeStatic] at done
  rcases searchMapnode_spec ok short with ⟨_, search⟩ | ⟨e, z, found, search, _⟩
  · rw [search] at done
    obtain ⟨rfl, rfl⟩ := Prod.mk.inj (Except.ok.inj done)
    exact ⟨ok, id, .inl ⟨rfl, rfl⟩⟩
  · rw [search] at done
    simp only [bind, Except.bind] at done
    split at done
    · obtain ⟨rfl, rfl⟩ := Prod.mk.inj (Except.ok.inj done)
      exact ⟨ok, id, .inl ⟨rfl, rfl⟩⟩
    · next state =>
        rw [not_or] at state
        split at done
        · cases done
        · next result deletion =>
            obtain ⟨rib, mn⟩ := result
            obtain ⟨rfl, rfl⟩ := Prod.mk.inj (Except.ok.inj done)
            obtain ⟨ok', orphans, none | ⟨e', found', store⟩⟩ :=
              deleteMapnode_spec ok short deletion
            · rw [found] at none
              cases none.1
            · obtain rfl : e = e' := (Prod.mk.inj (Option.some.inj (found.symm.trans found'))).2
              refine ⟨ok', orphans, .inr ⟨rfl, e, ⟨found, state⟩, ?_⟩⟩
              rw [view_delRouteToTun]
              simp only [Writer.write, View.remove, Lisp.view, store]

/-- `uninstall_mapnode_static` unpins the best match, unless it is ACTIVE or QUERIED. -/
theorem uninstallMapnodeStatic_writes {lisp lisp' : Lisp} {pfx : Prefix} {removed : Bool}
    (ok : TableOk lisp.rib) (short : pfx.bitlen ≤ 128)
    (done : uninstallMapnodeStatic lisp pfx = .ok (lisp', removed))
    : TableOk lisp'.rib
      ∧ (lisp.rib.NoOrphans → lisp'.rib.NoOrphans)
      ∧ ∃ w : Writer, w.Enabled lisp.view ∧ lisp'.view = w.write lisp.view
          ∧ (w = .idle ∨ ∃ e, w = .unpin pfx e) := by
  obtain ⟨ok', orphans, ⟨_, rfl⟩ | ⟨_, e, enabled, view⟩⟩ :=
    uninstallMapnodeStatic_cases ok short done
  · exact ⟨ok', orphans, .idle, trivial, rfl, .inl rfl⟩
  · exact ⟨ok', orphans, .unpin pfx e, enabled, view, .inr ⟨e, rfl⟩⟩

/-- `install_mapnode_queried` for a prefix that nothing covers puts a QUERIED entry. -/
theorem installMapnodeQueried_writes {lisp : Lisp} {rib : Maptable} {pfx : Prefix}
    {garbage : Mapnode} (ok : TableOk lisp.rib) (valid : pfx.Valid)
    (missed : best lisp.rib.store pfx.key = none)
    (done : installMapnodeQueried lisp.rib pfx garbage = .ok rib)
    : TableOk rib
      ∧ (lisp.rib.NoOrphans → rib.NoOrphans)
      ∧ ∃ e, (Writer.query pfx e).Enabled lisp.view
          ∧ Lisp.view { lisp with rib } = (Writer.query pfx e).write lisp.view := by
  have known : (refPrefix pfx).isSome := refPrefix_isSome valid.family
  simp only [installMapnodeQueried, bind, Except.bind] at done
  split at done
  · cases done
  · next result update =>
      obtain ⟨after, stored⟩ := result
      obtain rfl := Except.ok.inj done
      obtain ⟨ok', orphans, ⟨_, _, e, there, _⟩ | ⟨_, unknown, _⟩ | ⟨e, _, node, puts, store⟩⟩ :=
        updateMapnode_puts lisp.view.routes ok valid.storable update
      · rw [LongestPrefix.best_eq_none_iff.mp missed _ List.prefix_rfl] at there
        cases there
      · rw [unknown] at known
        cases known
      · refine ⟨ok', fun clean => orphans clean known, e, ⟨puts, missed, by rw [node]⟩, ?_⟩
        simp only [Writer.write, View.put, Lisp.view, store]

end Lixy
