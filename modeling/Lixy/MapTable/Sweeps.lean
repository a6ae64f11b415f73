import Lixy.MapTable.Refinement

/-! One pass of the TTL thread as a fold over the entries it visits: those without a
STATIC entry above them, in preorder.
-/

namespace Lixy

open ByteStrings
open PatriciaNode
open LongestPrefix (Store best insert erase)

/-- The head of the map table's tree. -/
abbrev Lisp.head (lisp : Lisp) : PatriciaNode Mapnode := lisp.rib.tree.head

-----------------------------------------------------------------------------------------
-- What a pass does to one entry
-----------------------------------------------------------------------------------------

/-- The mapnode after `mn->ttl -= MAPTTL_CHECK_INTERVAL`. -/
def Mapnode.aged (mn : Mapnode) : Mapnode := { mn with ttl := mn.ttl - mapttlCheckInterval }

/-- A visit removes the entry. -/
def Mapnode.expires (mn : Mapnode) : Bool :=
  mn.state != .static && decide (mn.aged.ttl.toInt ≤ 0)

/-- The states in which a surviving entry is asked for again. -/
def Mapnode.refreshed (mn : Mapnode) : Bool :=
  mn.state == .active || mn.state == .negative || mn.state == .queried

/-- A visit keeps the entry and asks for it again. -/
def Mapnode.asks (mn : Mapnode) : Bool := mn.refreshed && !mn.expires

/-- What a pass reads and changes, in terms of the store. -/
structure SweepView where
  store : Store Bool (Prefix × Mapnode)
  routes : List Route
  mapRequests : List Prefix

/-- The daemon as a pass sees it. -/
def Lisp.sweepView (lisp : Lisp) : SweepView :=
  { store := lisp.rib.store, routes := lisp.routes, mapRequests := lisp.mapRequests }

/-- The visit of one entry. -/
def SweepView.visit (v : SweepView) (e : Prefix × Mapnode) : SweepView :=
  if e.2.state = .static then
    v
  else if e.2.expires then
    { v with
        store := erase v.store e.1.key
        routes := if e.2.state = .active then v.routes.filter (· ≠ e.1.route) else v.routes }
  else
    { v with
        store := insert v.store e.1.key (e.1, e.2.aged)
        mapRequests := if e.2.refreshed then e.1 :: v.mapRequests else v.mapRequests }

/-- The entry a node carries. -/
def nodeEntry? : PatriciaNode Mapnode → Option (Prefix × Mapnode)
  | .node _ _ (some pfx) (some mn) _ _ => some (pfx, mn)
  | _ => none

/-- The visit of a node. -/
def SweepView.visitNode (v : SweepView) (n : PatriciaNode Mapnode) : SweepView :=
  match nodeEntry? n with
  | some e => v.visit e
  | none => v

/-- The walk skips what lies below a STATIC entry. -/
def sweepStops (n : PatriciaNode Mapnode) : Bool :=
  match nodeEntry? n with
  | some e => e.2.state == .static
  | none => false

/-- The visit frees the node: its entry expires and a child is missing. -/
def sweepFrees (n : PatriciaNode Mapnode) : Bool :=
  match n with
  | .node _ _ (some _) (some mn) l r => mn.expires && (l.isNull || r.isNull)
  | _ => false

-----------------------------------------------------------------------------------------
-- The body of the walk
-----------------------------------------------------------------------------------------

/-- What a write through the pointer `pn` leaves of the tree. -/
theorem write_keeps {table : Maptable} {z : Loc Mapnode} {a bit : Nat} {pfx : Option Prefix}
    {data : Option Mapnode} {l r : PatriciaNode Mapnode}
    (node_eq : z.node = PatriciaNode.node a bit pfx data l r) (head : z.head = table.tree.head)
    (mn : Mapnode)
    : Keeps table.tree.head (table.write z mn).tree.head a l r false := by
  have written : (table.write z mn).tree.head
      = plug (node a bit pfx (some mn) l r) z.path := by
    simp [Maptable.write, Loc.setData, Loc.head, node_eq, PatriciaNode.setData]
  rw [written]
  refine ⟨fun _ => ⟨bit, pfx, some mn, within_plug (Within.self (by simp)) _⟩,
    fun freed => Bool.noConfusion freed, ?_, ?_⟩
  · intro sub h
    have inside : Within sub (node a bit pfx (some mn) l r) := Or.inr h
    exact within_plug inside _
  · intro sub h outside
    rw [← head] at h
    change Within sub (plug z.node z.path) at h
    rw [node_eq] at h
    rcases within_cases h outside with h | ⟨f, hf, h⟩
    · have inside : Within sub (node a bit pfx (some mn) l r) := Or.inr h
      exact within_plug inside _
    · exact within_beside hf h _

/-- The end of a visit whose entry expires: the aged entry is deleted by its own prefix. -/
theorem expiring_visit {lisp lisp' : Lisp} {table : Maptable} {z : Loc Mapnode}
    {pfx : Prefix} {mn : Mapnode} {a bit : Nat} {l r : PatriciaNode Mapnode} {broke : Bool}
    (ok : TableOk table) (head : z.head = table.tree.head)
    (node_eq : z.node = PatriciaNode.node a bit (some pfx) (some mn) l r)
    (rib : lisp.rib = table)
    (done : (do
        let deleted ← deleteMapnode lisp.rib pfx
        return ({ lisp with rib := deleted.1 }, false)) = Except.ok (lisp', broke))
    : broke = false
      ∧ TableOk lisp'.rib
      ∧ (table.NoOrphans → lisp'.rib.NoOrphans)
      ∧ lisp'.sweepView
          = { store := erase table.store pfx.key
              routes := lisp.routes
              mapRequests := lisp.mapRequests }
      ∧ Keeps table.tree.head lisp'.head a l r (l.isNull || r.isNull) := by
  rw [rib] at done
  cases deletion : deleteMapnode table pfx with
  | error f => simp [deletion, bind, Except.bind] at done
  | ok result =>
      obtain ⟨after, mn'⟩ := result
      simp only [deletion, bind, Except.bind] at done
      obtain ⟨rfl, rfl⟩ := Prod.mk.inj (Except.ok.inj done)
      have removed := deleteMapnode_own (e := (pfx, mn)) ok head node_eq deletion
      refine ⟨rfl, removed.treeOk, removed.noOrphans, ?_, ?_⟩
      · rw [Lisp.sweepView]
        congr 1
        exact removed.store
      · exact removed.keeps

/-- One visit: a STATIC entry ends the descent, any other is aged and kept or removed. -/
theorem sweepNode_spec {lisp lisp' : Lisp} {z : Loc Mapnode} {broke : Bool}
    (ok : TableOk lisp.rib) (visits : Visits lisp z Lisp.head)
    (done : sweepNode lisp z = .ok (lisp', broke))
    : TableOk lisp'.rib
      ∧ (lisp.rib.NoOrphans → lisp'.rib.NoOrphans)
      ∧ ∃ e a bit l r, z.node = PatriciaNode.node a bit (some e.1) (some e.2) l r
        ∧ e ∈ lisp.rib.entries
        ∧ broke = (e.2.state == .static)
        ∧ lisp'.sweepView = lisp.sweepView.visit e
        ∧ Keeps lisp.head lisp'.head a l r (e.2.expires && (l.isNull || r.isNull)) := by
  obtain ⟨head, locOk, _⟩ := visits
  rw [sweepNode] at done
  split at done
  · next a bit pfx mn l r node_eq =>
      have holds : z.Holds (pfx, mn) := ⟨a, bit, l, r, node_eq⟩
      have mem : (pfx, mn) ∈ lisp.rib.entries := by
        have inHead := holds.mem
        rwa [head] at inHead
      split at done
      · next static =>
          obtain ⟨rfl, rfl⟩ := Prod.mk.inj (Except.ok.inj done)
          refine ⟨ok, id, (pfx, mn), a, bit, l, r, node_eq, mem, by simp [static], ?_, ?_⟩
          · simp [SweepView.visit, static]
          · have kept : mn.expires = false := by simp [Mapnode.expires, static]
            have within := Loc.within (z := z) (by simp [node_eq])
            rw [node_eq, head] at within
            simpa [kept] using Keeps.refl within
      · next movable =>
          obtain ⟨ok₁, store₁, orphans₁⟩ := write_spec ok holds locOk head mn.aged
          have inRib : z.head = lisp.rib.tree.head := head
          have keeps₁ := write_keeps node_eq inRib mn.aged
          have still : (mn.state == .static) = false := by simp [movable]
          have holds₁ := holds.setData mn.aged
          have node_eq₁ : (z.setData mn.aged).node
              = PatriciaNode.node a bit (some pfx) (some mn.aged) l r := by
            simp [Loc.setData, node_eq, PatriciaNode.setData]
          dsimp only at done
          split at done
          · next due =>
              have expires : mn.expires = true := by
                rw [Mapnode.expires, Bool.and_eq_true]
                exact ⟨by simpa using movable, decide_eq_true due⟩
              obtain ⟨flag, ok', orphans', view', keeps'⟩ :=
                expiring_visit ok₁ (z := z.setData mn.aged) rfl node_eq₁ (by split <;> rfl) done
              refine ⟨ok', fun h => orphans' (orphans₁ h), (pfx, mn), a, bit, l, r, node_eq, mem,
                by rw [flag, still], ?_, ?_⟩
              · rw [view', store₁, LongestPrefix.erase_insert, SweepView.visit, if_neg movable,
                  if_pos expires]
                split <;> rfl
              · simpa [expires] using keeps₁.trans keeps'
          · next kept =>
              have stays : mn.expires = false := by
                rw [Mapnode.expires, Bool.and_eq_false_iff]
                exact Or.inr (decide_eq_false kept)
              let written : Lisp := { lisp with rib := lisp.rib.write z mn.aged }
              have ends (yes : Bool) (h : mn.refreshed = yes)
                  (done : (Except.ok (if yes then sendMapRequest pfx written else written, false)
                    : Except Fault (Lisp × Bool)) = .ok (lisp', broke))
                  : broke = false
                    ∧ lisp' = if mn.refreshed then sendMapRequest pfx written else written := by
                obtain ⟨rfl, rfl⟩ := Prod.mk.inj (Except.ok.inj done)
                rw [h]
                exact ⟨rfl, rfl⟩
              have sent : broke = false
                  ∧ lisp' = if mn.refreshed then sendMapRequest pfx written else written := by
                split at done
                · next state => exact ends true (by simp [Mapnode.refreshed, state]) done
                · next state => exact ends true (by simp [Mapnode.refreshed, state]) done
                · next state => exact ends true (by simp [Mapnode.refreshed, state]) done
                · next active negative queried =>
                    have asleep : mn.refreshed = false := by
                      simpa [Mapnode.refreshed] using And.intro (And.intro active negative) queried
                    exact ends false asleep done
              obtain ⟨rfl, same⟩ := sent
              have rib : lisp'.rib = lisp.rib.write z mn.aged := by rw [same]; split <;> rfl
              refine ⟨rib ▸ ok₁, rib ▸ orphans₁, (pfx, mn), a, bit, l, r, node_eq, mem,
                still.symm, ?_, ?_⟩
              · rw [SweepView.visit, if_neg movable, if_neg (by simp [stays]), same]
                simp only [Lisp.sweepView]
                split <;> exact congrArg (fun store => SweepView.mk store _ _) store₁
              · simpa [stays, Lisp.head, rib] using keeps₁
  · cases done

/-- A visit fails only where it frees a node of a table with orphans. -/
theorem sweepNode_total {lisp : Lisp} {z : Loc Mapnode} (ok : TableOk lisp.rib)
    (visits : Visits lisp z Lisp.head) (safe : sweepFrees z.node = false ∨ lisp.rib.NoOrphans)
    : ∃ result, sweepNode lisp z = .ok result := by
  obtain ⟨⟨pfx, mn⟩, a, bit, l, r, node_eq⟩ := visits.entry
  obtain ⟨head, locOk, _⟩ := visits
  have holds : z.Holds (pfx, mn) := ⟨a, bit, l, r, node_eq⟩
  obtain ⟨ok₁, _, orphans₁⟩ := write_spec ok holds locOk head mn.aged
  rw [sweepNode, node_eq]
  dsimp only
  split
  · exact ⟨_, rfl⟩
  · next movable =>
      split
      · next due =>
          have expires : mn.expires = true := by
            rw [Mapnode.expires, Bool.and_eq_true]
            exact ⟨by simpa using movable, decide_eq_true due⟩
          have node_eq₁ : (z.setData mn.aged).node
              = PatriciaNode.node a bit (some pfx) (some mn.aged) l r := by
            simp [Loc.setData, node_eq, PatriciaNode.setData]
          have deletion : ∃ result, deleteMapnode (lisp.rib.write z mn.aged) pfx = .ok result := by
            rcases safe with bothThere | clean
            · simp only [sweepFrees, node_eq, expires, Bool.true_and, Bool.or_eq_false_iff,
                isNull_eq_false] at bothThere
              exact deleteMapnode_own_total (e := (pfx, mn.aged)) ok₁ rfl node_eq₁
                bothThere.1 bothThere.2
            · have mem := holds.mem
              rw [head] at mem
              exact deleteMapnode_total ok₁ (orphans₁ clean) (ok.wf.bitlen_le mem)
          split <;> exact Fault.returns_bind deletion _
      · split <;> exact ⟨_, rfl⟩

-----------------------------------------------------------------------------------------
-- A whole pass
-----------------------------------------------------------------------------------------

/-- The entries a pass visits, in order. -/
def visited (n : PatriciaNode Mapnode) : List (Prefix × Mapnode) :=
  (preorder sweepStops n).filterMap nodeEntry?

/-- The pass replays the visits of its entries. `clean` may ask for tables without orphans. -/
theorem sweep_replays (clean : Prop)
    : Replays Lisp.head sweepNode (fun lisp => TableOk lisp.rib ∧ (clean → lisp.rib.NoOrphans))
        sweepStops sweepFrees Lisp.sweepView SweepView.visitNode where
  wf := fun _ inv => inv.1.wf
  distinct := fun _ inv => inv.1.distinct
  bare := fun _ _ _ _ _ => ⟨rfl, rfl, fun _ => rfl⟩
  step := by
    intro lisp z lisp' broke a bit pfx data l r inv visits node_eq done
    obtain ⟨ok', orphans', e, a', bit', l', r', node_eq', mem, flag, view, keeps⟩ :=
      sweepNode_spec inv.1 visits done
    obtain ⟨rfl, rfl, rfl, rfl, rfl, rfl⟩ := PatriciaNode.node.inj (node_eq.symm.trans node_eq')
    rw [node_eq]
    exact ⟨⟨ok', fun h => orphans' (inv.2 h)⟩, flag, view, keeps⟩

/-- A pass over a table in order visits its entries one by one, unless a visit fails. It
fails at no table without orphans.
-/
theorem sweep_cases {lisp : Lisp} (ok : TableOk lisp.rib)
    : ((∃ f, sweep lisp = .error f) ∧ ¬ lisp.rib.NoOrphans
          ∧ ∃ n ∈ preorder sweepStops lisp.head, sweepFrees n = true)
      ∨ ∃ w, sweep lisp = .ok w
          ∧ TableOk w.st.rib
          ∧ (lisp.rib.NoOrphans → w.st.rib.NoOrphans)
          ∧ w.st.sweepView = (visited lisp.head).foldl SweepView.visit lisp.sweepView
          ∧ w.freedReads = freedAmong sweepStops sweepFrees (preorder sweepStops lisp.head) := by
  rcases (sweep_replays lisp.rib.NoOrphans).walkTree ⟨ok, id⟩
    with ⟨lisp', z, f, done, inv, visits, mem, failed⟩ | ⟨w, done, inv, view, log⟩
  · refine Or.inl ⟨⟨f, done⟩, ?_, ?_⟩
    · intro clean
      obtain ⟨result, ran⟩ := sweepNode_total inv.1 visits (Or.inr (inv.2 clean))
      rw [ran] at failed
      cases failed
    · refine ⟨z.node, mem, ?_⟩
      by_contra safe
      obtain ⟨result, ran⟩ := sweepNode_total inv.1 visits (Or.inl (by simpa using safe))
      rw [ran] at failed
      cases failed
  · refine Or.inr ⟨w, done, inv.1, inv.2, ?_, log⟩
    rw [view, visited, List.foldl_filterMap]
    congr 1
    funext v n
    rw [SweepView.visitNode]
    split <;> simp_all

end Lixy
