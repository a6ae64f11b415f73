import Lixy.Control.RouteListing
import Lixy.Daemon.StaticImmunity
import Lixy.Patricia.Clearing

/-! What the map table's tree takes up in memory: the nodes beside the entries, and the arrays of
node pointers that the searches and the walks over it use as stacks.
-/

namespace Lixy

open ByteStrings
open PatriciaNode
open EventRuns (run Reachable)

-----------------------------------------------------------------------------------------
-- What the calls on a table keep
-----------------------------------------------------------------------------------------

/-- A property of tables that every call on a table keeps, and every write to an entry. -/
structure Kept (Inv : Maptable → Prop) : Prop where
  update
    : ∀ {table after pfx node stored}, TableOk table → Inv table → pfx.Storable
      → updateMapnode table pfx node = .ok (after, stored) → Inv after
  delete
    : ∀ {table after pfx mn}, TableOk table → Inv table
      → deleteMapnode table pfx = .ok (after, mn) → Inv after
  write
    : ∀ {table z} {e : Prefix × Mapnode} {mn}, TableOk table → Inv table → z.Holds e → LocOk z
      → z.head = table.tree.head → Inv (table.write z mn)

section

variable {Inv : Maptable → Prop} {lisp lisp' : Lisp}

/-- A record keeps what the calls keep. -/
theorem Kept.record (kept : Kept Inv) {pkt : List Byte} {record : Nat} {more : Bool}
    (effect : RecordEffect pkt record lisp lisp' more) (ok : TableOk lisp.rib)
    (inv : Inv lisp.rib)
    : Inv lisp'.rib := by
  cases effect with
  | ignored _ _ _ => exact inv
  | asked _ _ _ => exact inv
  | denied _ _ parsed _ update =>
      exact kept.update ok inv
        ((recordPrefix_eq_ok.mp parsed).2.storable (updateMapnode_short ok update)) update
  | refreshed _ _ search =>
      rcases searchMapnode_spec ok (searchMapnode_short ok search)
        with ⟨_, missed⟩ | ⟨e, z, _, hit, holds, locOk, head⟩
      · cases missed.symm.trans search
      · obtain ⟨rfl, _⟩ := Prod.mk.inj (Option.some.inj (Except.ok.inj (hit.symm.trans search)))
        exact kept.write ok inv holds locOk head
  | learned _ parsed _ _ _ update =>
      rw [learned_rib]
      exact kept.update ok inv
        ((recordPrefix_eq_ok.mp parsed).2.storable (updateMapnode_short ok update)) update

/-- A visit of the TTL thread keeps what the calls keep. -/
theorem Kept.sweepNode (kept : Kept Inv) {z : Loc Mapnode} {broke : Bool}
    (visits : Visits lisp z Lisp.head) (ok : TableOk lisp.rib) (inv : Inv lisp.rib)
    (done : sweepNode lisp z = .ok (lisp', broke))
    : Inv lisp'.rib := by
  obtain ⟨⟨pfx, mn⟩, a, bit, l, r, node_eq⟩ := visits.entry
  have holds : z.Holds (pfx, mn) := ⟨a, bit, l, r, node_eq⟩
  have aged : Inv (lisp.rib.write z mn.aged) :=
    kept.write ok inv holds visits.locOk visits.head
  have agedOk := (write_spec ok holds visits.locOk visits.head mn.aged).1
  simp only [Lixy.sweepNode, node_eq] at done
  split at done
  · obtain ⟨rfl, _⟩ := Prod.mk.inj (Except.ok.inj done)
    exact inv
  · split at done
    · obtain ⟨⟨rib, old⟩, deletion, done⟩ := bind_eq_ok.mp done
      obtain ⟨rfl, _⟩ := Prod.mk.inj (pure_eq_ok.mp done)
      have removed : deleteMapnode (lisp.rib.write z mn.aged) pfx = .ok (rib, old) := by
        split at deletion
        · exact deletion
        · exact deletion
      exact kept.delete agedOk aged removed
    · split at done
      all_goals
        obtain ⟨rfl, _⟩ := Prod.mk.inj (pure_eq_ok.mp done)
        exact aged

/-- An event keeps what the calls keep. -/
theorem Kept.step (kept : Kept Inv) {ev : Event} (ok : TableOk lisp.rib) (inv : Inv lisp.rib)
    (done : step lisp ev = .ok lisp')
    : Inv lisp'.rib := by
  cases ev with
  | message len buf =>
      simp only [Lixy.step, lispMapMessageThread] at done
      split at done
      · obtain rfl := Except.ok.inj done
        exact inv
      · rcases processLispMapMessage_cases done with ⟨_, next, reply⟩ | ⟨_, rib, _⟩
        · have keeps (record : Nat) (lisp lisp' : Lisp) (next : Nat) (more : Bool)
              (both : TableOk lisp.rib ∧ Inv lisp.rib) (_ : True)
              (done : mapReplyRecord buf record lisp = .ok (lisp', next, more))
              : TableOk lisp'.rib ∧ Inv lisp'.rib := by
            obtain ⟨_, effect⟩ := mapReplyRecord_effect done
            exact ⟨(effect.writes both.1).1, kept.record effect both.1 both.2⟩
          exact ((recordsGuarded_true buf _ _ _).invariant keeps ⟨ok, inv⟩
            (processLispMapReply_records reply)).2
        · exact rib ▸ inv
  | packet frame =>
      simp only [Lixy.step, lispRawPacketThread] at done
      split at done
      · obtain rfl := pure_eq_ok.mp done
        exact inv
      · next dstprefix destination =>
          obtain ⟨found, _, done⟩ := bind_eq_ok.mp done
          split at done
          · obtain rfl := pure_eq_ok.mp done
            exact inv
          · obtain ⟨rib, install, done⟩ := bind_eq_ok.mp done
            obtain ⟨⟨after, stored⟩, update, install⟩ := bind_eq_ok.mp install
            obtain rfl := pure_eq_ok.mp install
            obtain rfl := pure_eq_ok.mp done
            exact kept.update ok inv (RawPacket.dstprefix_valid destination).storable update
  | installRoute dst addr =>
      simp only [Lixy.step, cmdInstallRoute] at done
      split at done
      · obtain rfl := Except.ok.inj done
        exact inv
      · next dstPrefix destination =>
          obtain ⟨⟨rib, stored⟩, update, done⟩ := bind_eq_ok.mp done
          have updated := kept.update ok inv (Destination.dstPrefix_valid destination).storable update
          dsimp only at done
          split at done
          · obtain rfl := pure_eq_ok.mp done
            rw [addRouteToTun_rib]
            exact updated
          · obtain rfl := pure_eq_ok.mp done
            exact updated
  | uninstallRoute dst =>
      simp only [Lixy.step, cmdUninstallRoute] at done
      split at done
      · obtain rfl := Except.ok.inj done
        exact inv
      · obtain ⟨⟨after, removed⟩, uninstall, done⟩ := bind_eq_ok.mp done
        obtain rfl := pure_eq_ok.mp done
        obtain ⟨found, _, uninstall⟩ := bind_eq_ok.mp uninstall
        split at uninstall
        · obtain ⟨rfl, _⟩ := Prod.mk.inj (pure_eq_ok.mp uninstall)
          exact inv
        · split at uninstall
          · obtain ⟨rfl, _⟩ := Prod.mk.inj (pure_eq_ok.mp uninstall)
            exact inv
          · obtain ⟨⟨rib, old⟩, deletion, uninstall⟩ := bind_eq_ok.mp uninstall
            obtain ⟨rfl, _⟩ := Prod.mk.inj (pure_eq_ok.mp uninstall)
            exact kept.delete ok inv deletion
  | sweep =>
      obtain ⟨w, pass, done⟩ := bind_eq_ok.mp done
      obtain rfl := pure_eq_ok.mp done
      have keeps (w w' : Walk Lisp) (a : Nat) (both : TableOk w.st.rib ∧ Inv w.st.rib)
          (done : walkStep Lisp.head Lixy.sweepNode w a = .ok w')
          : TableOk w'.st.rib ∧ Inv w'.st.rib := by
        rcases walkStep_st both.1.wf done with same | ⟨z, broke, visits, ran⟩
        · rw [same]
          exact both
        · exact ⟨(sweepNode_spec both.1 visits ran).1, kept.sweepNode visits both.1 both.2 ran⟩
      exact (@patriciaWalk_steps _ _ Lisp.head Lixy.sweepNode
        (fun lisp => TableOk lisp.rib ∧ Inv lisp.rib) keeps _ _ _ ⟨ok, inv⟩ pass).2

/-- What the calls keep holds in every reachable table, if it holds in the first. -/
theorem Kept.reachable (kept : Kept Inv) (start : Inv createMaptable)
    (reachable : Reachable Lixy.step Lisp.start lisp)
    : Inv lisp.rib :=
  (@Reachable.invariant _ _ _ _ (fun lisp => TableOk lisp.rib ∧ Inv lisp.rib) _ _
    (fun _ _ _ both done => ⟨(step_writes both.1 done).1, kept.step both.1 both.2 done⟩)
    ⟨tableOk_createMaptable, start⟩ reachable).2

end

-----------------------------------------------------------------------------------------
-- Counted nodes
-----------------------------------------------------------------------------------------

/-- The calls on a table keep the count of its nodes. -/
theorem kept_counted : Kept fun table => Counted table.tree where
  update := by
    intro table after pfx node stored ok counted storable done
    obtain ⟨tree, pn, lookup, ⟨mn, data, _, rfl, _⟩ | ⟨_, rfl, _⟩⟩ := updateMapnode_cases done
    · rcases patriciaLookup_data ok storable lookup node with ⟨_, _, _, rfl⟩ | ⟨_, none⟩
      · exact counted
      · cases data.symm.trans none
    · exact counted.store ok storable lookup node
  delete := by
    intro table after pfx mn ok counted done
    obtain ⟨found, search, done⟩ := bind_eq_ok.mp done
    cases found with
    | none =>
        obtain ⟨rfl, _⟩ := Prod.mk.inj (pure_eq_ok.mp done)
        exact counted
    | some z =>
        obtain ⟨tree, removal, done⟩ := bind_eq_ok.mp done
        obtain ⟨rfl, _⟩ := Prod.mk.inj (pure_eq_ok.mp done)
        have fits : pfx.bitlen ≤ table.tree.maxbits := by
          by_contra long
          cases (patriciaSearchBest_too_long long).symm.trans search
        rcases patriciaSearchBest_spec ok.wf fits with ⟨_, missed⟩ | ⟨_, z', _, hit, _, _, head⟩
        · cases missed.symm.trans search
        · obtain rfl := Option.some.inj (Except.ok.inj (hit.symm.trans search))
          exact counted.remove head removal
  write := by
    intro table z e mn _ counted _ _ head
    change table.tree.numActiveNode = _
    rw [Maptable.write, setData_size, head]
    exact counted

/-- In every reachable state `num_active_node` is the number of the tree's nodes, which is less
than twice the number of mapnodes; and no search of the table, no pass of the TTL thread and no
listing of routes writes behind the `PATRICIA_MAXBITS + 1` places of its stack.
-/
theorem table_bounds {lisp : Lisp} (reachable : Reachable step Lisp.start lisp)
    : lisp.rib.tree.numActiveNode = lisp.head.size
      ∧ lisp.head.size ≤ 2 * lisp.head.carriers.length - 1
      ∧ (∀ pfx : Prefix, pfx.bitlen ≤ 128 → ∀ inclusive,
        (best2Stack lisp.rib.tree pfx inclusive).length ≤ patriciaMaxbits + 1)
      ∧ (∀ w, WalkReaches Lisp.head sweepNode lisp w → w.stack.length ≤ patriciaMaxbits)
      ∧ ∀ af type w,
          WalkReaches (fun (shown : List Control.ShowLine × Lisp) => shown.2.rib.tree.head)
            (Control.showRouteNode af (Control.stateOf type)) ([], lisp) w
          → w.stack.length ≤ patriciaMaxbits := by
  have ok := tableOk_of_reachable reachable
  refine ⟨kept_counted.reachable rfl reachable, ?_, ?_, ?_, ?_⟩
  · rcases ok.wf with empty | ⟨k, _, rooted⟩
    · change lisp.rib.tree.head.size ≤ _
      rw [empty]
      exact Nat.zero_le _
    · exact Nat.le_sub_one_of_lt rooted.size_le
  · exact fun pfx short inclusive => best2Stack_le ok short inclusive
  · exact fun w reached => reached.stack_le (sweep_replays False) ⟨ok, False.elim⟩
  · exact fun af type w reached => reached.stack_le (Control.showRoute_replays ok) rfl

set_option maxRecDepth 4000 in
/-- The nodes of a table with a static route for 10.128.0.0/9 and a learned entry for
10.1.0.0/16, and the one that branches to them, are counted, and searches and passes have room.
-/
theorem nineNet_bounds
    : ∃ lisp, run step Lisp.start [.installRoute nineNet .zero, .message 40 sixteenReply] = .ok lisp
        ∧ lisp.rib.entries.map (fun e => (e.1.bitlen, e.2.state)) = [(16, .active), (9, .static)]
        ∧ lisp.rib.tree.numActiveNode = 3 ∧ lisp.rib.tree.numActiveNode = lisp.head.size
        ∧ lisp.head.size ≤ 2 * lisp.head.carriers.length - 1
        ∧ (∀ inclusive,
          (best2Stack lisp.rib.tree tenPrefix inclusive).length ≤ patriciaMaxbits + 1)
        ∧ ∀ w, WalkReaches Lisp.head sweepNode lisp w → w.stack.length ≤ patriciaMaxbits := by
  obtain ⟨lisp, ran, entries, nodes⟩
      : ∃ lisp,
        run step Lisp.start [.installRoute nineNet .zero, .message 40 sixteenReply] = .ok lisp
        ∧ lisp.rib.entries.map (fun e => (e.1.bitlen, e.2.state)) = [(16, .active), (9, .static)]
        ∧ lisp.rib.tree.numActiveNode = 3 :=
    ⟨_, rfl, rfl, rfl⟩
  obtain ⟨counted, size, searched, swept, _⟩ := table_bounds ⟨_, ran⟩
  exact ⟨lisp, ran, entries, nodes, counted, size, searched tenPrefix (by decide), swept⟩

end Lixy
