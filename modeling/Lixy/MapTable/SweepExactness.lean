import Lixy.Foundation.EventRuns
import Lixy.MapTable.Sweeps
import Lixy.Patricia.Reaching

/-! Which tables one pass of the TTL thread treats as intended: those where no dynamic
entry lies below a STATIC one, no node is freed while the walk stands on it, and no ttl
wraps around.
-/

namespace Lixy

open ByteStrings
open PatriciaNode
open LongestPrefix (Store best insert erase)
open EventRuns (run guarded_of_forall)

-----------------------------------------------------------------------------------------
-- A sequence of visits
-----------------------------------------------------------------------------------------

/-- Visits change no key but those visited, by induction on the visits. -/
theorem foldl_visit_other (es : List (Prefix × Mapnode)) (v : SweepView) {key : List Bool}
    (other : ∀ e ∈ es, e.1.key ≠ key)
    : (es.foldl SweepView.visit v).store key = v.store key := by
  induction es generalizing v with
  | nil => rfl
  | cons e rest ih =>
      rw [List.foldl_cons, ih _ (fun e' he' => other e' (List.mem_cons_of_mem _ he'))]
      have ne : key ≠ e.1.key := (other e (by simp)).symm
      rw [SweepView.visit]
      split
      · rfl
      · split
        · exact LongestPrefix.erase_of_ne _ ne
        · exact LongestPrefix.insert_of_ne _ _ ne

/-- A dynamic entry visited once is aged or gone afterwards. -/
theorem foldl_visit_store {es : List (Prefix × Mapnode)} (v : SweepView)
    (keys : (es.map (fun e => e.1.key)).Nodup) {e : Prefix × Mapnode} (mem : e ∈ es)
    (dynamic : e.2.state ≠ .static)
    : (es.foldl SweepView.visit v).store e.1.key
      = if e.2.expires then none else some (e.1, e.2.aged) := by
  induction es generalizing v with
  | nil => cases mem
  | cons head rest ih =>
      rw [List.map_cons, List.nodup_cons, List.mem_map] at keys
      rcases List.mem_cons.mp mem with rfl | mem
      · rw [List.foldl_cons, foldl_visit_other _ _ (fun e' he' same => keys.1 ⟨e', he', same⟩),
          SweepView.visit, if_neg dynamic]
        split
        · exact LongestPrefix.erase_self _ _
        · exact LongestPrefix.insert_self _ _ _
      · exact ih _ keys.2 mem

/-- Visits leave a STATIC entry alone. -/
theorem foldl_visit_static {es : List (Prefix × Mapnode)} (v : SweepView)
    (keys : (es.map (fun e => e.1.key)).Nodup) {e : Prefix × Mapnode} (mem : e ∈ es)
    (static : e.2.state = .static)
    : (es.foldl SweepView.visit v).store e.1.key = v.store e.1.key := by
  induction es generalizing v with
  | nil => cases mem
  | cons head rest ih =>
      rw [List.map_cons, List.nodup_cons, List.mem_map] at keys
      rcases List.mem_cons.mp mem with rfl | later
      · rw [List.foldl_cons, foldl_visit_other _ _ (fun e' he' same => keys.1 ⟨e', he', same⟩),
          SweepView.visit, if_pos static]
      · rw [List.foldl_cons, ih _ keys.2 later]
        refine foldl_visit_other [head] v ?_
        intro e' he' same
        obtain rfl := List.mem_singleton.mp he'
        exact keys.1 ⟨e, later, same.symm⟩

/-- The visits delete the routes of the ACTIVE entries that expire. -/
theorem mem_foldl_visit_routes (es : List (Prefix × Mapnode)) (v : SweepView) (route : Route)
    : route ∈ (es.foldl SweepView.visit v).routes
      ↔ route ∈ v.routes
        ∧ ¬ ∃ e ∈ es, e.2.state = .active ∧ e.2.expires = true ∧ e.1.route = route := by
  induction es generalizing v with
  | nil => simp
  | cons e rest ih =>
      rw [List.foldl_cons, ih, SweepView.visit]
      by_cases static : e.2.state = .static
      · have kept : e.2.expires = false := by simp [Mapnode.expires, static]
        simp [static, kept]
      · by_cases due : e.2.expires = true
        · by_cases active : e.2.state = .active
          · have ne : (route ≠ e.1.route) ↔ ¬ e.1.route = route := not_congr eq_comm
            simp [due, active, ne, and_assoc]
          · simp [static, due, active]
        · simp [static, due]

/-- The visits ask once for each surviving entry that is to be refreshed. -/
theorem foldl_visit_mapRequests (es : List (Prefix × Mapnode)) (v : SweepView)
    : (es.foldl SweepView.visit v).mapRequests
      = ((es.filter (fun e => e.2.asks)).map Prod.fst).reverse ++ v.mapRequests := by
  induction es generalizing v with
  | nil => rfl
  | cons e rest ih =>
      rw [List.foldl_cons, ih, SweepView.visit]
      by_cases static : e.2.state = .static
      · have quiet : e.2.asks = false := by simp [Mapnode.asks, Mapnode.refreshed, static]
        simp [static, quiet]
      · by_cases due : e.2.expires = true
        · have quiet : e.2.asks = false := by simp [Mapnode.asks, due]
          simp [static, due, quiet]
        · by_cases refreshed : e.2.refreshed = true
          · have asks : e.2.asks = true := by simp [Mapnode.asks, due, refreshed]
            simp [static, due, refreshed, asks]
          · have quiet : e.2.asks = false := by simp [Mapnode.asks, refreshed]
            simp [static, due, refreshed, quiet]

-----------------------------------------------------------------------------------------
-- Which entries are visited
-----------------------------------------------------------------------------------------

/-- A pass reaches its entries as a walk that breaks off at the STATIC ones. -/
theorem visited_eq_reached (n : PatriciaNode Mapnode)
    : visited n = reached (fun e => e.2.state == .static) n := by
  have stops : sweepStops = stopsAt (fun e => e.2.state == .static) := by
    funext n
    rcases n with _ | ⟨_, _, _ | pfx, _ | mn, _, _⟩
      <;> simp [sweepStops, nodeEntry?, stopsAt, ownEntry, nodeEntry]
  have entry : (fun n : PatriciaNode Mapnode => Option.toList <| nodeEntry? n) = ownEntry := by
    funext n
    rcases n with _ | ⟨_, _, _ | pfx, _ | mn, _, _⟩ <;> rfl
  rw [visited, reached, stops, List.filterMap_eq_flatMap_toList, entry]

/-- Each entry is visited at most once. -/
theorem visited_sublist (n : PatriciaNode Mapnode) : (visited n).Sublist n.entries :=
  visited_eq_reached n ▸ reached_sublist n

/-- No other STATIC entry of `stored` covers `e`. -/
def Uncovered (stored : List (Prefix × Mapnode)) (e : Prefix × Mapnode) : Prop :=
  ∀ s ∈ stored, s.2.state = .static → s.1.key <+: e.1.key → s.1.key = e.1.key

/-- A pass visits the entries with no other STATIC entry above them. -/
theorem Hangs.mem_visited {req : List Bool} {n : PatriciaNode Mapnode} (h : Hangs req n)
    {e : Prefix × Mapnode}
    : e ∈ visited n ↔ e ∈ n.entries ∧ Uncovered n.entries e := by
  simp only [visited_eq_reached, h.mem_reached, Unblocked, beq_iff_eq, Uncovered]

-----------------------------------------------------------------------------------------
-- Freed nodes
-----------------------------------------------------------------------------------------

theorem mem_preorder_within {stops : PatriciaNode Mapnode → Bool}
    {sub n : PatriciaNode Mapnode} (h : sub ∈ preorder stops n)
    : Within sub n := by
  induction n with
  | null => cases h
  | node a bit pfx data l r ihl ihr =>
      rw [preorder, List.mem_cons] at h
      rcases h with rfl | h
      · exact Or.inl rfl
      · split at h
        · cases h
        · rcases List.mem_append.mp h with h | h
          · exact Or.inr (Or.inl (ihl h))
          · exact Or.inr (Or.inr (ihr h))

/-- A node has a child on one side exactly when some stored key extends its own to that
side.
-/
theorem TreeOk.side_iff {t : PatriciaTree Mapnode} (ok : TreeOk t) {a bit : Nat}
    {e : Prefix × Mapnode} {l r : PatriciaNode Mapnode}
    (within : Within (node a bit (some e.1) (some e.2) l r) t.head) (b : Bool)
    : side b l r ≠ null ↔ ∃ e' ∈ t.head.entries, e.1.key ++ [b] <+: e'.1.key := by
  obtain ⟨above, located⟩ := within.locate ok.distinct []
  obtain ⟨head, _⟩ := locate_some located
  have start : LocOk ⟨t.head, []⟩ := by
    obtain ⟨k, below, hk⟩ := ok.wf.rooted within.tree_ne_null
    exact ⟨[], k, rfl, below, hk⟩
  obtain ⟨req, k, path, below, hk⟩ := locate_locOk located start
  have own : e.1.key = k := (hk.1.own e.1 rfl).1
  rw [own]
  constructor
  · intro present
    obtain ⟨kc, belowc, hkc⟩ := (hk.side b).rooted present
    obtain ⟨e', he'⟩ := hkc.exists_entry (by rintro rfl; simp at belowc)
    refine ⟨e', within.collect_subset _ e' ?_, belowc.trans (hkc.key_below he')⟩
    cases b <;> simp only [side] at he' <;> simp [collect, PatriciaNode.entries] at he' ⊢ <;> tauto
  · rintro ⟨e', he', longer⟩ none
    have members := (head_collect_of_node (z := ⟨node a bit (some e.1) (some e.2) l r, above⟩)
      (fun _ => nodeEntry) rfl).mem_iff (a := e')
    rw [head] at members
    have inside : e' ∈ nodeEntry (some e.1) (some e.2)
        ++ (l.entries ++ r.entries ++ pathEntries above) := members.mp he'
    simp only [nodeEntry, List.mem_append, List.mem_singleton] at inside
    rcases inside with rfl | (he' | he') | he'
    · exact not_append_prefix (own ▸ longer)
    · cases b
      · simp only [side, Bool.false_eq_true, if_false] at none
        simp [none] at he'
      · exact not_both_sides longer ((hk.side false).key_below he')
    · cases b
      · exact not_both_sides longer ((hk.side true).key_below he')
      · simp only [side, if_true] at none
        simp [none] at he'
    · exact path.not_prefix he' (below.trans ((List.prefix_append k [b]).trans longer))

/-- A pass reads freed nodes only where it frees one. -/
theorem freedAmong_eq_nil_iff (visited : List (PatriciaNode Mapnode))
    : freedAmong sweepStops sweepFrees visited = [] ↔ ∀ n ∈ visited, sweepFrees n = false := by
  have stop (n : PatriciaNode Mapnode) (h : sweepFrees n = true) : sweepStops n = false := by
    unfold sweepFrees at h
    split at h
    · simp only [Bool.and_eq_true, Mapnode.expires] at h
      simpa [sweepStops, nodeEntry?] using h.1.1
    · cases h
  simp only [freedAmong, List.reverse_eq_nil_iff, List.filterMap_eq_nil_iff, List.mem_filter,
    Bool.and_eq_true, Bool.not_eq_true', and_imp]
  constructor
  · intro nothing n hn
    by_contra frees
    have freed : sweepFrees n = true := by simpa using frees
    have none := nothing n hn freed (stop n freed)
    cases n with
    | null => cases freed
    | node a bit pfx data l r => cases none
  · intro nothing n hn freed
    rw [nothing n hn] at freed
    cases freed

/-- The pass frees no node exactly when each visited entry that expires has longer entries
on both of its sides.
-/
theorem TreeOk.sweepFrees_iff {t : PatriciaTree Mapnode} (ok : TreeOk t)
    : (∀ n ∈ preorder sweepStops t.head, sweepFrees n = false)
      ↔ ∀ e ∈ visited t.head, e.2.expires = true
        → ∀ b, ∃ e' ∈ t.head.entries, e.1.key ++ [b] <+: e'.1.key := by
  constructor
  · intro unfreed e he expires b
    obtain ⟨n, hn, entry⟩ := List.mem_filterMap.mp he
    have within := mem_preorder_within hn
    have kept := unfreed n hn
    unfold nodeEntry? at entry
    split at entry
    · obtain rfl := Option.some.inj entry
      simp only [sweepFrees, expires, Bool.true_and, Bool.or_eq_false_iff, isNull_eq_false] at kept
      refine (ok.side_iff (e := (_, _)) within b).mp ?_
      cases b
      · exact kept.1
      · exact kept.2
    · cases entry
  · intro forked n hn
    have within := mem_preorder_within hn
    unfold sweepFrees
    split
    · next a bit pfx mn l r =>
        have mem : (pfx, mn) ∈ visited t.head :=
          List.mem_filterMap.mpr ⟨_, hn, rfl⟩
        cases expires : mn.expires with
        | false => rfl
        | true =>
            have sides := forked _ mem expires
            have left := (ok.side_iff (e := (pfx, mn)) within false).mpr (sides false)
            have right := (ok.side_iff (e := (pfx, mn)) within true).mpr (sides true)
            simp only [Bool.true_and, Bool.or_eq_false_iff, isNull_eq_false]
            exact ⟨left, right⟩
    · rfl

-----------------------------------------------------------------------------------------
-- Exact passes
-----------------------------------------------------------------------------------------

/-- What one pass is meant to do, told by the ttls as integers: every dynamic entry is
lowered by the check interval or, when that leaves nothing, removed together with the
route of an ACTIVE one; every dynamic survivor that is not a DROP entry is asked for once;
STATIC entries stay; and the walk reads no freed node.
-/
structure SweptExactly (before : Lisp) (w : Walk Lisp) : Prop where
  removed : ∀ e ∈ before.rib.entries, e.2.state ≠ .static → e.2.ttl.toInt - 10 ≤ 0
    → w.st.rib.store e.1.key = none
  lowered : ∀ e ∈ before.rib.entries, e.2.state ≠ .static → 0 < e.2.ttl.toInt - 10
    → ∃ ttl : BitVec 32, ttl.toInt = e.2.ttl.toInt - 10
      ∧ w.st.rib.store e.1.key = some (e.1, { e.2 with ttl })
  static : ∀ e ∈ before.rib.entries, e.2.state = .static → w.st.rib.store e.1.key = some e
  absent : ∀ key, before.rib.store key = none → w.st.rib.store key = none
  routes : ∀ route, route ∈ w.st.routes
    ↔ route ∈ before.routes
      ∧ ¬ ∃ e ∈ before.rib.entries, e.2.state = .active ∧ e.2.ttl.toInt - 10 ≤ 0
          ∧ e.1.route = route
  asked : ∃ sent, w.st.mapRequests = sent ++ before.mapRequests
    ∧ sent.Perm ((w.st.rib.entries.filter (fun e => e.2.refreshed)).map Prod.fst)
  unfreed : w.freedReads = []

/-- The tables that a pass treats so: no dynamic entry lies below a STATIC one, a dynamic
entry that expires has longer entries on both sides, and no ttl is so low that lowering it
wraps around.
-/
structure SweepSafe (table : Maptable) : Prop where
  uncovered : ∀ e ∈ table.entries, e.2.state ≠ .static → ∀ s ∈ table.entries,
    s.2.state = .static → ¬ s.1.key <+: e.1.key
  forked : ∀ e ∈ table.entries, e.2.state ≠ .static → e.2.ttl.toInt ≤ 10
    → ∀ b, ∃ e' ∈ table.entries, e.1.key ++ [b] <+: e'.1.key
  inRange : ∀ e ∈ table.entries, e.2.state ≠ .static → -2147483638 ≤ e.2.ttl.toInt

/-- Lowering a ttl is exact unless it wraps, and then the result is positive. -/
theorem aged_ttl (mn : Mapnode)
    : mn.aged.ttl.toInt
      = if -2147483638 ≤ mn.ttl.toInt then mn.ttl.toInt - 10
        else mn.ttl.toInt - 10 + 4294967296 := by
  have low := BitVec.le_toInt mn.ttl
  have high := BitVec.toInt_lt (x := mn.ttl)
  simp only [Mapnode.aged, mapttlCheckInterval, BitVec.toInt_sub]
  rw [show (10 : BitVec 32).toInt = 10 by decide, Int.bmod_def]
  split <;> split <;> omega

section Pass

variable {lisp : Lisp} {w : Walk Lisp}

/-- What is known of a pass that returns. -/
structure Passed (lisp : Lisp) (w : Walk Lisp) : Prop where
  ok : TableOk lisp.rib
  after : TableOk w.st.rib
  view : w.st.sweepView = (visited lisp.head).foldl SweepView.visit lisp.sweepView
  log : w.freedReads = freedAmong sweepStops sweepFrees (preorder sweepStops lisp.head)

theorem Passed.keys_nodup (h : Passed lisp w)
    : ((visited lisp.head).map (fun e => e.1.key)).Nodup :=
  h.ok.wf.keys_nodup.sublist ((visited_sublist lisp.head).map _)

theorem Passed.store (h : Passed lisp w)
    : w.st.rib.store = ((visited lisp.head).foldl SweepView.visit lisp.sweepView).store :=
  congrArg SweepView.store h.view

/-- An entry that is not visited stays. -/
theorem Passed.unvisited (h : Passed lisp w) {e : Prefix × Mapnode}
    (mem : e ∈ lisp.rib.entries) (skipped : e ∉ visited lisp.head)
    : w.st.rib.store e.1.key = some e := by
  rw [h.store, foldl_visit_other]
  · exact h.ok.store_self mem
  · intro e' he' same
    have stored := (h.ok.wf.mem_visited.mp he').1
    exact skipped (h.ok.wf.entry_unique stored mem same ▸ he')

/-- A visited dynamic entry is aged or gone. -/
theorem Passed.dynamic (h : Passed lisp w) {e : Prefix × Mapnode}
    (mem : e ∈ visited lisp.head) (dynamic : e.2.state ≠ .static)
    : w.st.rib.store e.1.key = if e.2.expires then none else some (e.1, e.2.aged) := by
  rw [h.store, foldl_visit_store _ h.keys_nodup mem dynamic]

/-- A STATIC entry stays, visited or not. -/
theorem Passed.static (h : Passed lisp w) {e : Prefix × Mapnode}
    (mem : e ∈ lisp.rib.entries) (static : e.2.state = .static)
    : w.st.rib.store e.1.key = some e := by
  by_cases visit : e ∈ visited lisp.head
  · rw [h.store, foldl_visit_static _ h.keys_nodup visit static]
    exact h.ok.store_self mem
  · exact h.unvisited mem visit

theorem Mapnode.expires_iff {mn : Mapnode} (dynamic : mn.state ≠ .static)
    (inRange : -2147483638 ≤ mn.ttl.toInt)
    : mn.expires = true ↔ mn.ttl.toInt - 10 ≤ 0 := by
  simp [Mapnode.expires, dynamic, aged_ttl, inRange]

end Pass

/-- In a safe table every dynamic entry is visited. -/
theorem SweepSafe.visits {table : Maptable} (safe : SweepSafe table) (ok : TableOk table)
    {e : Prefix × Mapnode} (mem : e ∈ table.entries) (dynamic : e.2.state ≠ .static)
    : e ∈ visited table.tree.head :=
  ok.wf.mem_visited.mpr
    ⟨mem, fun s hs static covers => absurd covers (safe.uncovered e mem dynamic s hs static)⟩

/-- In a safe table no node is freed. -/
theorem SweepSafe.unfreed {table : Maptable} (safe : SweepSafe table) (ok : TableOk table)
    : ∀ n ∈ preorder sweepStops table.tree.head, sweepFrees n = false := by
  rw [ok.sweepFrees_iff]
  intro e he due
  have mem := (ok.wf.mem_visited.mp he).1
  have dynamic : e.2.state ≠ .static := by
    intro static
    simp [Mapnode.expires, static] at due
  have low := (Mapnode.expires_iff dynamic (safe.inRange e mem dynamic)).mp due
  exact safe.forked e mem dynamic (by omega)

/-- A safe table is swept exactly. -/
theorem Passed.exact {lisp : Lisp} {w : Walk Lisp} (h : Passed lisp w)
    (safe : SweepSafe lisp.rib)
    : SweptExactly lisp w := by
  have expires {e : Prefix × Mapnode} (mem : e ∈ lisp.rib.entries) (dynamic : e.2.state ≠ .static)
      : e.2.expires = true ↔ e.2.ttl.toInt - 10 ≤ 0 :=
    Mapnode.expires_iff dynamic (safe.inRange e mem dynamic)
  have after {e : Prefix × Mapnode} (mem : e ∈ lisp.rib.entries) (dynamic : e.2.state ≠ .static)
      : w.st.rib.store e.1.key = if e.2.expires then none else some (e.1, e.2.aged) :=
    h.dynamic (safe.visits h.ok mem dynamic) dynamic
  have absent : ∀ key, lisp.rib.store key = none → w.st.rib.store key = none := by
    intro key none
    rw [h.store, foldl_visit_other]
    · exact none
    · intro e he same
      have stored := (h.ok.wf.mem_visited.mp he).1
      exact h.ok.wf.store_eq_none_iff.mp none e stored same
  refine
    { removed := ?_, lowered := ?_, static := fun e => h.static, absent := absent
      routes := ?_, asked := ?_, unfreed := ?_ }
  · intro e mem dynamic due
    rw [after mem dynamic, (expires mem dynamic).mpr due]
    rfl
  · intro e mem dynamic left
    have kept : ¬ e.2.expires = true := by rw [expires mem dynamic]; omega
    refine ⟨e.2.aged.ttl, ?_, ?_⟩
    · rw [aged_ttl, if_pos (safe.inRange e mem dynamic)]
    · rw [after mem dynamic, if_neg kept]
      rfl
  · intro route
    have routes : w.st.routes = ((visited lisp.head).foldl SweepView.visit lisp.sweepView).routes :=
      congrArg SweepView.routes h.view
    rw [routes, mem_foldl_visit_routes]
    refine and_congr Iff.rfl (not_congr ⟨?_, ?_⟩)
    · rintro ⟨e, he, active, due, same⟩
      have mem := (h.ok.wf.mem_visited.mp he).1
      exact ⟨e, mem, active, (expires mem (by simp [active])).mp due, same⟩
    · rintro ⟨e, mem, active, due, same⟩
      have dynamic : e.2.state ≠ .static := by simp [active]
      exact ⟨e, safe.visits h.ok mem dynamic, active, (expires mem dynamic).mpr due, same⟩
  · refine ⟨_, (congrArg SweepView.mapRequests h.view).trans (foldl_visit_mapRequests _ _), ?_⟩
    refine (List.reverse_perm _).trans ?_
    refine (List.perm_ext_iff_of_nodup ?_ ?_).mpr (fun pfx => ?_)
    · refine List.Nodup.of_map Prefix.key ?_
      rw [List.map_map]
      exact h.keys_nodup.sublist (List.filter_sublist.map _)
    · refine List.Nodup.of_map Prefix.key ?_
      rw [List.map_map]
      exact h.after.wf.keys_nodup.sublist (List.filter_sublist.map _)
    · simp only [List.mem_map, List.mem_filter]
      constructor
      · rintro ⟨e, ⟨he, asks⟩, rfl⟩
        have mem := (h.ok.wf.mem_visited.mp he).1
        simp only [Mapnode.asks, Bool.and_eq_true, Bool.not_eq_true'] at asks
        have dynamic : e.2.state ≠ .static := by
          intro static
          simp [Mapnode.refreshed, static] at asks
        have stored := after mem dynamic
        rw [asks.2] at stored
        exact ⟨(e.1, e.2.aged), ⟨(h.after.store_eq_some_iff.mp stored).1, asks.1⟩, rfl⟩
      · rintro ⟨e', ⟨mem', refreshed⟩, rfl⟩
        have stored' := h.after.store_self mem'
        cases stored : lisp.rib.store e'.1.key with
        | none =>
            rw [absent _ stored] at stored'
            cases stored'
        | some e =>
            obtain ⟨mem, key⟩ := h.ok.store_eq_some_iff.mp stored
            by_cases static : e.2.state = .static
            · have same := h.static mem static
              rw [key, stored'] at same
              obtain rfl := Option.some.inj same
              simp [Mapnode.refreshed, static] at refreshed
            · have aged := after mem static
              rw [key, stored'] at aged
              split at aged
              · cases aged
              · next kept =>
                  obtain rfl := Option.some.inj aged
                  refine ⟨e, ⟨safe.visits h.ok mem static, ?_⟩, rfl⟩
                  simp only [Mapnode.asks, Bool.and_eq_true, Bool.not_eq_true']
                  exact ⟨refreshed, by simpa using kept⟩
  · rw [h.log, freedAmong_eq_nil_iff]
    exact safe.unfreed h.ok

/-- A table that is swept exactly is safe. -/
theorem Passed.safe {lisp : Lisp} {w : Walk Lisp} (h : Passed lisp w)
    (exact_ : SweptExactly lisp w)
    : SweepSafe lisp.rib := by
  have visits {e : Prefix × Mapnode} (mem : e ∈ lisp.rib.entries) (dynamic : e.2.state ≠ .static)
      : e ∈ visited lisp.head := by
    by_contra skipped
    have stays := h.unvisited mem skipped
    by_cases due : e.2.ttl.toInt - 10 ≤ 0
    · rw [exact_.removed e mem dynamic due] at stays
      cases stays
    · obtain ⟨ttl, lower, stored⟩ := exact_.lowered e mem dynamic (by omega)
      rw [stored] at stays
      have same := congrArg (fun x => x.2.ttl.toInt) (Option.some.inj stays)
      simp only [lower] at same
      omega
  have inRange : ∀ e ∈ lisp.rib.entries, e.2.state ≠ .static → -2147483638 ≤ e.2.ttl.toInt := by
    intro e mem dynamic
    by_contra low
    have gone := exact_.removed e mem dynamic (by omega)
    have bound := BitVec.le_toInt e.2.ttl
    have kept : e.2.expires = false := by
      rw [Mapnode.expires, aged_ttl, if_neg low, Bool.and_eq_false_iff]
      exact Or.inr (decide_eq_false (by omega))
    rw [h.dynamic (visits mem dynamic) dynamic, kept] at gone
    cases gone
  refine ⟨?_, ?_, inRange⟩
  · intro e mem dynamic s hs static covers
    have same := (h.ok.wf.mem_visited.mp (visits mem dynamic)).2 s hs static covers
    rw [h.ok.wf.entry_unique hs mem same] at static
    exact dynamic static
  · intro e mem dynamic low
    have unfreed := exact_.unfreed
    rw [h.log, freedAmong_eq_nil_iff, h.ok.sweepFrees_iff] at unfreed
    exact unfreed e (visits mem dynamic)
      ((Mapnode.expires_iff dynamic (inRange e mem dynamic)).mpr (by omega))

/-- A pass over a table in order is exact exactly when the table is safe. -/
theorem sweep_exact_iff {lisp : Lisp} (ok : TableOk lisp.rib)
    : (∃ w, sweep lisp = .ok w ∧ SweptExactly lisp w) ↔ SweepSafe lisp.rib := by
  rcases sweep_cases ok with ⟨⟨f, failed⟩, _, n, hn, frees⟩ | ⟨w, done, after, _, view, log⟩
  · constructor
    · rintro ⟨w, done, _⟩
      rw [failed] at done
      cases done
    · intro safe
      rw [safe.unfreed ok n hn] at frees
      cases frees
  · have passed : Passed lisp w := ⟨ok, after, view, log⟩
    constructor
    · rintro ⟨w', done', exact_⟩
      rw [done] at done'
      obtain rfl := Except.ok.inj done'
      exact passed.safe exact_
    · exact fun safe => ⟨w, done, passed.exact safe⟩

/-- The prefix 10.0.0.0/8. -/
def tenPrefix : Prefix :=
  { family := afInet, bitlen := 8, refCount := 0, add := setSin (inAddr 10 0 0 0) (zeros 16) }

/-- The two halves of 10.0.0.0/8. -/
def ninePrefix (upper : Bool) : Prefix where
  family := afInet
  bitlen := 9
  refCount := 0
  add := setSin (inAddr 10 (if upper then 128 else 0) 0 0) (zeros 16)

/-- A daemon that stores an entry. -/
def storeStep (lisp : Lisp) (e : Prefix × Mapnode) : Except Fault Lisp := do
  let (rib, _) ← updateMapnode lisp.rib e.1 e.2
  return { lisp with rib }

/-- A table of such entries is in order. -/
theorem tableOk_storeStep {es : List (Prefix × Mapnode)} {lisp : Lisp}
    (valid : ∀ e ∈ es, e.1.Valid) (done : run storeStep Lisp.start es = .ok lisp)
    : TableOk lisp.rib := by
  refine @EventRuns.Guarded.invariant _ _ _ storeStep (fun lisp => TableOk lisp.rib) _ _ _ _
    (guarded_of_forall valid Lisp.start) ?_ tableOk_createMaptable done
  intro lisp e next ok valid done
  obtain ⟨⟨rib, stored⟩, update, done⟩ := bind_eq_ok.mp done
  obtain rfl := pure_eq_ok.mp done
  exact (updateMapnode_spec ok valid.storable update).1

/-- A NEGATIVE entry for 10.0.0.0/8 that expires, over an ACTIVE entry for its lower half and a
STATIC one for the upper half.
-/
def halvedTen : List (Prefix × Mapnode) :=
  [(tenPrefix, { Mapnode.zero with state := .negative, ttl := 10 }),
    (ninePrefix false, { Mapnode.zero with state := .active, ttl := 600 }),
    (ninePrefix true, { Mapnode.zero with state := .static })]

theorem halvedTen_valid : ∀ e ∈ halvedTen, e.1.Valid := by decide

/-- They are swept exactly. -/
theorem halvedTen_swept_exactly
    : ∃ lisp w, run storeStep Lisp.start halvedTen = .ok lisp
        ∧ sweep lisp = .ok w ∧ SweptExactly lisp w
        ∧ w.st.rib.entries.map (fun e => (e.1.bitlen, e.2.state, e.2.ttl))
          = [(9, .active, 590), (9, .static, 0)] := by
  obtain ⟨lisp, w, done, pass, left, uncovered, forked, inRange⟩
      : ∃ lisp w, run storeStep Lisp.start halvedTen = .ok lisp ∧ sweep lisp = .ok w
        ∧ w.st.rib.entries.map (fun e => (e.1.bitlen, e.2.state, e.2.ttl))
          = [(9, .active, 590), (9, .static, 0)]
        ∧ (∀ e ∈ lisp.rib.entries, e.2.state ≠ .static → ∀ s ∈ lisp.rib.entries,
          s.2.state = .static → ¬ s.1.key <+: e.1.key)
        ∧ (∀ e ∈ lisp.rib.entries, e.2.state ≠ .static → e.2.ttl.toInt ≤ 10
          → ∀ b, ∃ e' ∈ lisp.rib.entries, e.1.key ++ [b] <+: e'.1.key)
        ∧ ∀ e ∈ lisp.rib.entries, e.2.state ≠ .static → -2147483638 ≤ e.2.ttl.toInt :=
    ⟨_, _, rfl, rfl, rfl, by decide, by decide, by decide⟩
  obtain ⟨w', pass', exact_⟩ := (sweep_exact_iff (tableOk_storeStep halvedTen_valid done)).mpr
    ⟨uncovered, forked, inRange⟩
  obtain rfl := Except.ok.inj (pass.symm.trans pass')
  exact ⟨lisp, w, done, pass, exact_, left⟩

/-- The pass that removes a NEGATIVE entry from a leaf goes on to read the freed node. -/
theorem storeTen_reads_freed
    : ¬ ∀ lisp : Lisp, TableOk lisp.rib → ∃ w, sweep lisp = .ok w ∧ SweptExactly lisp w := by
  intro swept
  obtain ⟨lisp, w, done, pass, freed⟩
      : ∃ lisp w, run storeStep Lisp.start
          [(tenPrefix, { Mapnode.zero with state := .negative, ttl := 10 })] = .ok lisp
        ∧ sweep lisp = .ok w ∧ w.freedReads ≠ [] :=
    ⟨_, _, rfl, rfl, by decide⟩
  obtain ⟨w', pass', exact_⟩ := swept lisp (tableOk_storeStep (by decide) done)
  obtain rfl : w = w' := Except.ok.inj (pass.symm.trans pass')
  exact freed exact_.unfreed

end Lixy
