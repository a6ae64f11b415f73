import Lixy.Daemon.ValidEvents

/-! The kernel's routes to the tunnel against the map table: which writers keep a route for
exactly the ACTIVE and STATIC entries.
-/

namespace Lixy

open ByteStrings
open LongestPrefix (Store best erase image)
open EventRuns (run Guarded)

-----------------------------------------------------------------------------------------
-- Agreement
-----------------------------------------------------------------------------------------

/-- The route that an entry calls for. -/
def routed (e : Prefix × Mapnode) : Option Route :=
  if e.2.state = .active ∨ e.2.state = .static then some e.1.route else none

theorem routed_eq_some {e : Prefix × Mapnode} {route : Route}
    : routed e = some route
      ↔ (e.2.state = .active ∨ e.2.state = .static) ∧ e.1.route = route := by
  unfold routed
  split <;> simp_all

theorem routed_eq_none {e : Prefix × Mapnode}
    : routed e = none ↔ e.2.state ≠ .active ∧ e.2.state ≠ .static := by
  rw [← not_or, routed]
  split <;> simp_all

/-- The routes are those that the entries call for, and the entries have valid prefixes. -/
structure View.Agrees (v : View) : Prop where
  keyed : ∀ key e, v.store key = some e → e.1.key = key
  valid : ∀ key e, v.store key = some e → e.1.Valid
  routes : v.routes = image routed v.store

/-- No two entries call for one route. -/
theorem View.Agrees.unique {v : View} (h : v.Agrees) {p : Prefix} {key : List Bool}
    {e : Prefix × Mapnode} (valid : p.Valid) (stored : v.store key = some e)
    (same : routed e = some p.route)
    : key = p.key := by
  rw [← h.keyed key e stored]
  exact (valid.key_of_route (routed_eq_some.mp same).2.symm).symm

theorem View.Agrees.insert {v : View} {e : Prefix × Mapnode} {routes : Set Route}
    (h : v.Agrees) (valid : e.1.Valid)
    (same : routes = image routed (LongestPrefix.insert v.store e.1.key e))
    : View.Agrees { store := LongestPrefix.insert v.store e.1.key e, routes } := by
  refine { keyed := ?_, valid := ?_, routes := same }
  all_goals
    intro key e' stored
    by_cases here : key = e.1.key
    · subst here
      obtain rfl : e = e' := by simpa using stored
      first | rfl | exact valid
    · have old : v.store key = some e' :=
        (LongestPrefix.insert_of_ne v.store e here).symm.trans stored
      first | exact h.keyed key e' old | exact h.valid key e' old

theorem View.Agrees.erase {v : View} {key : List Bool} {routes : Set Route} (h : v.Agrees)
    (same : routes = image routed (LongestPrefix.erase v.store key))
    : View.Agrees { store := LongestPrefix.erase v.store key, routes } := by
  have old {other : List Bool} {e : Prefix × Mapnode}
      (stored : LongestPrefix.erase v.store key other = some e)
      : v.store other = some e := by
    have ne : other ≠ key := by
      rintro rfl
      simp at stored
    exact (LongestPrefix.erase_of_ne v.store ne).symm.trans stored
  exact {
    keyed := fun other e stored => h.keyed other e (old stored)
    valid := fun other e stored => h.valid other e (old stored)
    routes := same }

/-- What is put for a valid prefix has a valid prefix. -/
theorem View.Agrees.puts_valid {v : View} {pfx : Prefix} {e : Prefix × Mapnode} (h : v.Agrees)
    (valid : pfx.Valid) (puts : v.Puts pfx e)
    : e.1.Valid :=
  puts.valid (fun old stored => h.valid _ old stored) (fun _ => valid)

-----------------------------------------------------------------------------------------
-- Writers that keep the agreement
-----------------------------------------------------------------------------------------

/-- A writer does its part for the routes: it has a valid prefix and an entry; it denies no
ACTIVE entry; it pins and unpins under the route of the entry itself.
-/
def Writer.Honest (v : View) : Writer → Prop
  | .stray _ => False
  | .learn pfx _ => pfx.Valid
  | .deny pfx _ =>
      pfx.Valid ∧ ∀ old, v.store pfx.key = some old → old.2.state ≠ .active
  | .query pfx _ => pfx.Valid
  | .pin pfx e => pfx.Valid ∧ e.1.route = pfx.route
  | .unpin pfx e => pfx.Valid ∧ (e.2.state = .static → e.1.route = pfx.route)
  | _ => True

/-- An entry without route replaces another such, or nothing. -/
theorem View.Agrees.put_unrouted {v : View} {pfx : Prefix} {e : Prefix × Mapnode} (h : v.Agrees)
    (valid : pfx.Valid) (puts : v.Puts pfx e) (new : routed e = none)
    (inactive : ∀ old, v.store pfx.key = some old → old.2.state ≠ .active)
    : (v.put e).Agrees := by
  refine h.insert (h.puts_valid valid puts) ?_
  rw [LongestPrefix.image_insert_of_same, h.routes]
  intro route
  constructor
  · intro contributes
    rw [new] at contributes
    cases contributes
  · rintro ⟨old, stored, contributes⟩
    rw [puts.key] at stored
    rw [routed_eq_none.mpr ⟨inactive old stored, puts.movable old stored⟩] at contributes
    cases contributes

/-- An entry with its own route, added with it. -/
theorem View.Agrees.put_routed {v : View} {pfx : Prefix} {e : Prefix × Mapnode} (h : v.Agrees)
    (valid : pfx.Valid) (puts : v.Puts pfx e) (new : routed e = some pfx.route)
    : ((v.put e).addRoute pfx.route).Agrees := by
  refine h.insert (h.puts_valid valid puts) ?_
  rw [LongestPrefix.image_insert_of_some new, View.put_routes, h.routes]
  intro old route stored contributes
  rw [puts.key] at stored
  rw [← (routed_eq_some.mp contributes).2, ← (routed_eq_some.mp new).2, puts.old old stored]

/-- An entry rewritten in place, with the state it had. -/
theorem View.Agrees.put_same {v : View} {e : Prefix × Mapnode} {mn : Mapnode} (h : v.Agrees)
    (stored : v.store e.1.key = some e) (state : mn.state = e.2.state)
    : (v.put (e.1, mn)).Agrees := by
  have same : routed (e.1, mn) = routed e := by simp [routed, state]
  refine h.insert (e := (e.1, mn)) (h.valid _ e stored) ?_
  rw [LongestPrefix.image_insert_of_same, h.routes]
  intro route
  rw [same]
  exact ⟨fun contributes => ⟨e, stored, contributes⟩,
    fun ⟨e', stored', contributes⟩ => Option.some.inj (stored.symm.trans stored') ▸ contributes⟩

/-- An entry removed together with its own route. -/
theorem View.Agrees.remove_routed {v : View} {e : Prefix × Mapnode} {route : Route}
    (h : v.Agrees) (stored : v.store e.1.key = some e) (own : routed e = some route)
    : ((v.remove e).delRoute route).Agrees := by
  refine h.erase ?_
  obtain rfl := (routed_eq_some.mp own).2
  have unique (other : List Bool) (e' : Prefix × Mapnode) (there : v.store other = some e')
      (same : routed e' = some e.1.route)
      : other = e.1.key :=
    h.unique (h.valid _ e stored) there same
  rw [LongestPrefix.image_erase_of_unique stored own unique, View.remove_routes, h.routes]

/-- An entry without route removed. -/
theorem View.Agrees.remove_unrouted {v : View} {e : Prefix × Mapnode} (h : v.Agrees)
    (stored : v.store e.1.key = some e) (none : routed e = none)
    : (v.remove e).Agrees := by
  refine h.erase ?_
  rw [h.routes, LongestPrefix.image_erase_of_none]
  intro e' stored'
  rwa [← Option.some.inj (stored.symm.trans stored')]

/-- A static delete that finds an entry without route deletes no route either: an entry with
the deleted route would match better than what was found.
-/
theorem View.Agrees.unpin_unrouted {v : View} {pfx : Prefix} {e : Prefix × Mapnode}
    (h : v.Agrees) (valid : pfx.Valid) (found : best v.store pfx.key = some (e.1.key, e))
    (none : routed e = none)
    : ((v.remove e).delRoute pfx.route).Agrees := by
  have stored := (LongestPrefix.best_eq_some_iff.mp found).stored
  have absent : pfx.route ∉ v.routes := by
    rw [h.routes]
    rintro ⟨key, e', stored', contributes⟩
    obtain rfl := h.unique valid stored' contributes
    have self := LongestPrefix.best_self stored'
    obtain rfl : e = e' := (Prod.mk.inj (Option.some.inj (found.symm.trans self))).2
    rw [none] at contributes
    cases contributes
  have kept := h.remove_unrouted stored none
  have same : (v.remove e).delRoute pfx.route = v.remove e := by
    rw [View.delRoute, View.remove_routes, Set.sdiff_singleton_eq_self absent]
    rfl
  rwa [same]

/-- An honest writer keeps the agreement. -/
theorem View.Agrees.write {v : View} {w : Writer} (h : v.Agrees) (honest : w.Honest v)
    (enabled : w.Enabled v)
    : (w.write v).Agrees := by
  have missed {pfx : Prefix} (empty : best v.store pfx.key = none) : v.store pfx.key = none :=
    LongestPrefix.best_eq_none_iff.mp empty _ List.prefix_rfl
  cases w with
  | idle => exact h
  | stray pfx => exact honest.elim
  | learn pfx e =>
      obtain ⟨puts, empty, active⟩ := enabled
      have route := refPrefix_route (puts.fresh (missed empty))
      exact h.put_routed honest puts (routed_eq_some.mpr ⟨Or.inl active, route⟩)
  | refresh e => exact h.put_same enabled rfl
  | deny pfx e =>
      obtain ⟨puts, state⟩ := enabled
      refine h.put_unrouted honest.1 puts (routed_eq_none.mpr ?_) honest.2
      rcases state with state | state <;> simp [state]
  | query pfx e =>
      obtain ⟨puts, empty, state⟩ := enabled
      refine h.put_unrouted honest puts (routed_eq_none.mpr (by simp [state])) ?_
      intro old stored
      cases (missed empty).symm.trans stored
  | pin pfx e =>
      obtain ⟨puts, static⟩ := enabled
      exact h.put_routed honest.1 puts (routed_eq_some.mpr ⟨Or.inr static, honest.2⟩)
  | unpin pfx e =>
      obtain ⟨found, inactive, _⟩ := enabled
      have stored := (LongestPrefix.best_eq_some_iff.mp found).stored
      by_cases static : e.2.state = .static
      · exact h.remove_routed stored (routed_eq_some.mpr ⟨Or.inr static, honest.2 static⟩)
      · exact h.unpin_unrouted honest.1 found (routed_eq_none.mpr ⟨inactive, static⟩)
  | age e =>
      simp only [Writer.write]
      split
      · exact h
      · next dynamic =>
          split
          · split
            · next active =>
                exact h.remove_routed enabled (routed_eq_some.mpr ⟨Or.inl active, rfl⟩)
            · next inactive =>
                exact h.remove_unrouted enabled (routed_eq_none.mpr ⟨inactive, dynamic⟩)
          · exact h.put_same enabled rfl

-----------------------------------------------------------------------------------------
-- Runs that keep the agreement
-----------------------------------------------------------------------------------------

/-- The kernel has a route for exactly the prefixes whose entry is ACTIVE or STATIC. -/
def RoutesAgree (lisp : Lisp) : Prop :=
  ∀ route, route ∈ lisp.routes
    ↔ ∃ e ∈ lisp.rib.entries, (e.2.state = .active ∨ e.2.state = .static) ∧ e.1.route = route

/-- A NATIVE or DROP record is not for the prefix of an ACTIVE entry. -/
def DeniesNoActive (pkt : List Byte) (record : Nat) (lisp : Lisp) : Prop :=
  recordLocatorCount pkt record = 0 → recordAct pkt record = 1 ∨ recordAct pkt record = 3
    → ∀ pfx, recordPrefix pkt record = .ok pfx
    → ∀ e ∈ lisp.rib.entries, e.1.key = pfx.key → e.2.state ≠ .active

/-- The event leaves no route behind and adds none that is not its entry's: its negative
records are not for ACTIVE entries, a static install meets no entry of another route under
its prefix, and a static delete that finds a STATIC entry names that entry's own prefix.
-/
def KeepsRoutes (lisp : Lisp) : Event → Prop
  | .message len buf =>
      sizeofIp + sizeofLispControl ≤ len
        → RecordsGuarded (DeniesNoActive buf) buf (byteAt buf 3).toNat sizeofLispMapReply lisp
  | .installRoute dst _ =>
      ∀ pfx, dst.dstPrefix = some pfx → ∀ e ∈ lisp.rib.entries, e.1.key = pfx.key
        → e.2.state = .static ∨ e.1.route = pfx.route
  | .uninstallRoute dst =>
      ∀ pfx, dst.dstPrefix = some pfx → ∀ e, best lisp.rib.store pfx.key = some (e.1.key, e)
        → e.2.state = .static → e.1.route = pfx.route
  | _ => True

/-- A table in order whose view agrees. -/
abbrev Agreeing (lisp : Lisp) : Prop := TableOk lisp.rib ∧ lisp.view.Agrees

/-- In a table in order the agreement speaks about the entries. -/
theorem Agreeing.routesAgree {lisp : Lisp} (h : Agreeing lisp) : RoutesAgree lisp := by
  intro route
  have routes : route ∈ lisp.routes ↔ route ∈ image routed lisp.rib.store := by
    have same : {route | route ∈ lisp.routes} = image routed lisp.rib.store := h.2.routes
    rw [← same]
    rfl
  rw [routes]
  constructor
  · rintro ⟨key, e, stored, contributes⟩
    exact ⟨e, (h.1.store_eq_some_iff.mp stored).1, routed_eq_some.mp contributes⟩
  · rintro ⟨e, mem, calls⟩
    exact ⟨e.1.key, e, h.1.store_self mem, routed_eq_some.mpr calls⟩

theorem agreeing_start : Agreeing Lisp.start := by
  refine ⟨tableOk_createMaptable, ?_⟩
  have empty (key : List Bool) : Lisp.start.view.store key = none := rfl
  refine { keyed := ?_, valid := ?_, routes := ?_ }
  · intro key e stored
    cases (empty key).symm.trans stored
  · intro key e stored
    cases (empty key).symm.trans stored
  · ext route
    constructor
    · nofun
    · rintro ⟨key, e, stored, _⟩
      cases (empty key).symm.trans stored

/-- A valid record that denies no ACTIVE entry keeps the agreement. -/
theorem Agreeing.record {pkt : List Byte} {record next : Nat} {lisp lisp' : Lisp} {more : Bool}
    (h : Agreeing lisp) (valid : ValidRecord pkt record) (denies : DeniesNoActive pkt record lisp)
    (done : mapReplyRecord pkt record lisp = .ok (lisp', next, more))
    : Agreeing lisp' := by
  obtain ⟨ok', w, enabled, view, source⟩ := (mapReplyRecord_effect done).2.writes h.1
  refine ⟨ok', view ▸ h.2.write ?_ enabled⟩
  cases w with
  | idle => trivial
  | refresh e => trivial
  | stray pfx =>
      have known := valid.eid.copies source
      rw [enabled] at known
      cases known
  | learn pfx e => exact valid.eid.prefix_valid source.2.1
  | deny pfx e =>
      obtain ⟨empty, parsed, act⟩ := source
      refine ⟨valid.eid.prefix_valid parsed, fun old stored => ?_⟩
      obtain ⟨mem, key⟩ := h.1.store_eq_some_iff.mp stored
      exact denies empty act pfx parsed old mem key
  | query pfx e => exact source.elim
  | pin pfx e => exact source.elim
  | unpin pfx e => exact source.elim
  | age e => exact source.elim

/-- A valid event that keeps the routes keeps the agreement. -/
theorem Agreeing.step {lisp lisp' : Lisp} {ev : Event} (h : Agreeing lisp)
    (valid : ValidEvent ev) (keeps : KeepsRoutes lisp ev) (done : Lixy.step lisp ev = .ok lisp')
    : Agreeing lisp' := by
  cases ev with
  | message len buf =>
      simp only [Lixy.step, lispMapMessageThread] at done
      split at done
      · obtain rfl := Except.ok.inj done
        exact h
      · next long =>
          rcases processLispMapMessage_cases done with ⟨_, next, reply⟩ | ⟨_, rib, view⟩
          · have records := processLispMapReply_records reply
            have guarded := (valid.records.guarded lisp).and (keeps (by omega))
            exact guarded.invariant
              (fun _ _ _ _ _ inv guard done => inv.record guard.1 guard.2 done) h records
          · exact ⟨rib ▸ h.1, view ▸ h.2⟩
  | packet frame =>
      obtain ⟨_, ok', w, enabled, view, source⟩ := lispRawPacketThread_writes h.1 done
      refine ⟨ok', view ▸ h.2.write ?_ enabled⟩
      rcases source with rfl | ⟨pfx, e, destination, rfl⟩
      · trivial
      · exact RawPacket.dstprefix_valid destination
  | installRoute dst addr =>
      obtain ⟨_, ok', w, enabled, view, source⟩ := cmdInstallRoute_writes h.1 done
      refine ⟨ok', view ▸ h.2.write ?_ enabled⟩
      rcases source with rfl | ⟨pfx, e, destination, rfl, _⟩
      · trivial
      · refine ⟨Destination.dstPrefix_valid destination, ?_⟩
        obtain ⟨puts, _⟩ := enabled
        cases stored : lisp.view.store pfx.key with
        | none => exact refPrefix_route (puts.fresh stored)
        | some old =>
            obtain ⟨mem, key⟩ := h.1.store_eq_some_iff.mp stored
            rw [puts.old old stored]
            exact (keeps pfx destination old mem key).resolve_left (puts.movable old stored)
  | uninstallRoute dst =>
      obtain ⟨_, ok', w, enabled, view, source⟩ := cmdUninstallRoute_writes h.1 done
      refine ⟨ok', view ▸ h.2.write ?_ enabled⟩
      rcases source with rfl | ⟨pfx, e, destination, rfl⟩
      · trivial
      · exact ⟨Destination.dstPrefix_valid destination, keeps pfx destination e enabled.1⟩
  | sweep =>
      obtain ⟨ok', ws, run, sources⟩ := step_writes h.1 done
      refine ⟨ok', run.invariant (fun w hw => sources w hw)
        (fun v w agrees source enabled => ?_) h.2⟩
      obtain ⟨e, rfl⟩ := source
      exact agrees.write trivial enabled

/-- Every run of valid events that keep the routes comes to its end, with the kernel's routes
in agreement with the table.
Witness: the agreement of the view is kept by every honest writer.
-/
theorem routes_agree {events : List Event} (valid : ∀ ev ∈ events, ValidEvent ev)
    (keeps : Guarded step KeepsRoutes Lisp.start events)
    : ∃ final, run step Lisp.start events = .ok final ∧ RoutesAgree final := by
  obtain ⟨final, done, _⟩ := run_valid valid clean_start
  have guarded := (EventRuns.guarded_of_forall valid Lisp.start).and keeps
  have agreeing : Agreeing final :=
    guarded.invariant (fun _ _ _ inv guard done => inv.step guard.1 guard.2 done)
      agreeing_start done
  exact ⟨final, done, agreeing.routesAgree⟩

/-- A positive reply and a pass of the TTL thread keep the routes. -/
theorem tenReply_routes_agree
    : ∃ final, run step Lisp.start [.message 40 tenReply, .sweep] = .ok final
        ∧ RoutesAgree final := by
  have valid : ∀ ev ∈ [Event.message 40 tenReply, .sweep], ValidEvent ev := by
    intro ev h
    rcases List.mem_cons.mp h with rfl | h
    · exact show ValidReply tenReply by decide
    · obtain rfl := List.mem_singleton.mp h
      trivial
  have positive (lisp : Lisp) : DeniesNoActive tenReply 12 lisp :=
    fun empty => absurd empty (by decide)
  exact routes_agree valid
    ⟨fun _ => ⟨positive _, fun _ _ _ => trivial⟩, fun _ _ => ⟨trivial, fun _ _ => trivial⟩⟩

/-- After a positive and then a NATIVE reply for one prefix, its entry is NEGATIVE and its
route is still there.
-/
theorem tenNative_leaves_route
    : ¬ ∀ events final, (∀ ev ∈ events, ValidEvent ev) → run step Lisp.start events = .ok final
        → RoutesAgree final := by
  intro agree
  have valid : ∀ ev ∈ [Event.message 40 tenReply, .message 28 tenNative], ValidEvent ev := by
    intro ev h
    rcases List.mem_cons.mp h with rfl | h
    · exact show ValidReply tenReply by decide
    · obtain rfl := List.mem_singleton.mp h
      exact show ValidReply tenNative by decide
  obtain ⟨final, done, route, states⟩
      : ∃ final, run step Lisp.start [.message 40 tenReply, .message 28 tenNative] = .ok final
        ∧ final.routes = [{ family := afInet, dst := [10, 0, 0, 0], dstLen := 8 }]
        ∧ ∀ e ∈ final.rib.entries, e.2.state = .negative :=
    ⟨_, rfl, by decide, by decide⟩
  obtain ⟨e, mem, state, _⟩ := (agree _ final valid done _).mp (route ▸ List.mem_singleton.mpr rfl)
  rw [states e mem] at state
  rcases state with state | state <;> cases state

end Lixy
