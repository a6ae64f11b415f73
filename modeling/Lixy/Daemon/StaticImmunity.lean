import Lixy.Daemon.ValidEvents

/-! Static routes outlive every event but their own deletion: no other writer may replace,
age or remove a STATIC entry.
-/

namespace Lixy

open ByteStrings
open EventRuns (run Reachable)

/-- `pfx` carries a STATIC entry with address `addr`. -/
def View.Pinned (v : View) (pfx : Prefix) (addr : SockaddrStorage) : Prop :=
  ∃ mn, v.store pfx.key = some (pfx, mn) ∧ mn.state = .static ∧ mn.addr = addr

/-- Only the prefix's own key matters. -/
theorem View.Pinned.congr {v v' : View} {pfx : Prefix} {addr : SockaddrStorage}
    (h : v.Pinned pfx addr) (same : v'.store pfx.key = v.store pfx.key)
    : v'.Pinned pfx addr := by
  obtain ⟨mn, stored, state⟩ := h
  exact ⟨mn, same.trans stored, state⟩

/-- What is put for a prefix goes beside a STATIC entry, never in its place. -/
theorem View.Pinned.put {v : View} {pfx other : Prefix} {addr : SockaddrStorage}
    {e : Prefix × Mapnode} (h : v.Pinned pfx addr) (puts : v.Puts other e)
    : (v.put e).Pinned pfx addr := by
  obtain ⟨mn, stored, static, _⟩ := id h
  refine h.congr (LongestPrefix.insert_of_ne v.store e ?_)
  intro key
  rw [key, puts.key] at stored
  exact puts.movable _ stored static

/-- Every writer but a static delete leaves a STATIC entry in place. -/
theorem View.Pinned.write {v : View} {pfx : Prefix} {addr : SockaddrStorage} {w : Writer}
    (h : v.Pinned pfx addr) (keeps : ∀ other e, w ≠ .unpin other e) (enabled : w.Enabled v)
    : (w.write v).Pinned pfx addr := by
  have own {e : Prefix × Mapnode} (stored : v.store e.1.key = some e) (key : pfx.key = e.1.key)
      : e.1 = pfx ∧ e.2.state = .static ∧ e.2.addr = addr := by
    obtain ⟨mn, held, static, same⟩ := h
    obtain rfl : e = (pfx, mn) := Option.some.inj (stored.symm.trans (key ▸ held))
    exact ⟨rfl, static, same⟩
  cases w with
  | idle => exact h
  | stray other => exact h
  | learn other e => exact h.put enabled.1
  | deny other e => exact h.put enabled.1
  | query other e => exact h.put enabled.1
  | pin other e => exact h.put enabled.1
  | unpin other e => exact absurd rfl (keeps other e)
  | refresh e =>
      by_cases key : pfx.key = e.1.key
      · obtain ⟨same, static, addr⟩ := own enabled key
        refine ⟨{ e.2 with ttl := mapttlDefault }, ?_, static, addr⟩
        simp [Writer.write, key, same]
      · exact h.congr (LongestPrefix.insert_of_ne v.store _ key)
  | age e =>
      simp only [Writer.write]
      by_cases key : pfx.key = e.1.key
      · rw [if_pos (own enabled key).2.1]
        exact h
      · split
        · exact h
        · split
          · have gone := LongestPrefix.erase_of_ne v.store key
            split
            · exact h.congr gone
            · exact h.congr gone
          · exact h.congr (LongestPrefix.insert_of_ne v.store _ key)

/-- Only an uninstall command runs a static delete. -/
theorem EventWriter.not_unpin {ev : Event} {w : Writer} (source : EventWriter ev w)
    (other : ∀ dst, ev ≠ .uninstallRoute dst) (pfx : Prefix) (e : Prefix × Mapnode)
    : w ≠ .unpin pfx e := by
  rintro rfl
  cases ev with
  | message len buf =>
      obtain ⟨_, _, no⟩ := source
      exact no
  | packet frame => rcases source with no | ⟨_, _, _, no⟩ <;> cases no
  | installRoute dst addr => rcases source with no | ⟨_, _, _, no, _⟩ <;> cases no
  | uninstallRoute dst => exact other dst rfl
  | sweep =>
      obtain ⟨_, no⟩ := source
      cases no

/-- One event other than an uninstall command leaves a STATIC entry in place. -/
theorem View.Pinned.step {lisp lisp' : Lisp} {pfx : Prefix} {addr : SockaddrStorage}
    {ev : Event} (h : lisp.view.Pinned pfx addr) (ok : TableOk lisp.rib)
    (other : ∀ dst, ev ≠ .uninstallRoute dst) (done : Lixy.step lisp ev = .ok lisp')
    : lisp'.view.Pinned pfx addr := by
  obtain ⟨_, ws, run, sources⟩ := step_writes ok done
  have keeps (v : View) (w : Writer) (held : v.Pinned pfx addr)
      (kind : ∀ other e, w ≠ .unpin other e) (enabled : w.Enabled v)
      : (w.write v).Pinned pfx addr :=
    held.write kind enabled
  exact run.invariant (fun w hw => (sources w hw).not_unpin other) keeps h

/-- Over every run without uninstall commands a STATIC entry stays as it is, up to its ttl;
and a run of valid events that follows valid events does come to its end.
Witness: the pinned entry is an invariant of every other event.
-/
theorem static_entry_stays {lisp : Lisp} {pfx : Prefix} {mn : Mapnode} {events : List Event}
    (reachable : Reachable step Lisp.start lisp) (stored : (pfx, mn) ∈ lisp.rib.entries)
    (static : mn.state = .static) (dynamic : ∀ ev ∈ events, ∀ dst, ev ≠ .uninstallRoute dst)
    : (∀ final, run step lisp events = .ok final
        → ∃ mn', (pfx, mn') ∈ final.rib.entries ∧ mn'.state = .static ∧ mn'.addr = mn.addr)
      ∧ ∀ before, (∀ ev ∈ before ++ events, ValidEvent ev) → run step Lisp.start before = .ok lisp
          → ∃ final, run step lisp events = .ok final := by
  have ok := tableOk_of_reachable reachable
  constructor
  · intro final done
    have guarded
        : EventRuns.Guarded step (fun _ ev => ∀ dst, ev ≠ .uninstallRoute dst) lisp events :=
      EventRuns.guarded_of_forall dynamic lisp
    have held : lisp.rib.store pfx.key = some (pfx, mn) := ok.store_self (e := (pfx, mn)) stored
    have start : TableOk lisp.rib ∧ lisp.view.Pinned pfx mn.addr := ⟨ok, mn, held, static, rfl⟩
    have keeps (s : Lisp) (ev : Event) (next : Lisp)
        (inv : TableOk s.rib ∧ s.view.Pinned pfx mn.addr) (other : ∀ dst, ev ≠ .uninstallRoute dst)
        (done : step s ev = .ok next)
        : TableOk next.rib ∧ next.view.Pinned pfx mn.addr :=
      ⟨(step_writes inv.1 done).1, inv.2.step inv.1 other done⟩
    obtain ⟨ok', mn', held, static', addr'⟩ := guarded.invariant keeps start done
    exact ⟨mn', (ok'.store_eq_some_iff.mp held).1, static', addr'⟩
  · intro before valid ran
    have clean := clean_of_valid (fun ev h => valid ev (List.mem_append_left _ h)) ran
    obtain ⟨final, done, _⟩ := run_valid (fun ev h => valid ev (List.mem_append_right _ h)) clean
    exact ⟨final, done⟩

/-- Two Map-Replies and a packet under 10.0.0.0/8, a second route for it with another address,
and a pass of the TTL thread.
-/
def tenHistory : List Event :=
  [.message 40 sixteenReply, .packet tenPacket, .message 28 tenNative,
    .installRoute tenNet { SockaddrStorage.zero with family := afInet }, .sweep]

set_option maxRecDepth 4000 in
/-- A route for 10.0.0.0/8 outlives them all, with its address; only the ttl is not what it was.
-/
theorem tenNet_entry_stays
    : ∃ lisp final pfx mn mn', run step Lisp.start [.installRoute tenNet .zero] = .ok lisp
        ∧ lisp.rib.entries = [(pfx, mn)] ∧ mn.state = .static ∧ mn.addr = .zero
        ∧ run step lisp tenHistory = .ok final
        ∧ (pfx, mn') ∈ final.rib.entries ∧ mn'.state = .static ∧ mn'.addr = .zero
        ∧ mn'.ttl ≠ mn.ttl := by
  obtain ⟨lisp, pfx, mn, ran, entries, static, addr, passed, done, ttls⟩
      : ∃ lisp pfx mn, run step Lisp.start [.installRoute tenNet .zero] = .ok lisp
        ∧ lisp.rib.entries = [(pfx, mn)] ∧ mn.state = .static ∧ mn.addr = .zero
        ∧ ∃ passed, run step lisp tenHistory = .ok passed
          ∧ ∀ e ∈ passed.rib.entries, e.2.ttl ≠ mn.ttl :=
    ⟨_, _, _, rfl, rfl, rfl, rfl, _, rfl, by decide⟩
  have valid : ∀ ev ∈ [Event.installRoute tenNet .zero] ++ tenHistory, ValidEvent ev := by
    simp only [tenHistory, List.cons_append, List.nil_append, List.forall_mem_cons, ValidEvent]
    exact ⟨trivial, by decide, trivial, by decide, trivial, trivial, nofun⟩
  have dynamic : ∀ ev ∈ tenHistory, ∀ dst, ev ≠ .uninstallRoute dst := by
    simp [tenHistory]
  have stays := static_entry_stays ⟨_, ran⟩ (entries ▸ List.mem_singleton_self _) static dynamic
  obtain ⟨final, done'⟩ := stays.2 _ valid ran
  obtain rfl := Except.ok.inj (done.symm.trans done')
  obtain ⟨mn', mem, static', same⟩ := stays.1 passed done
  exact ⟨lisp, passed, pfx, mn, mn', ran, entries, static, addr, done, mem, static',
    same.trans addr, ttls _ mem⟩

end Lixy
