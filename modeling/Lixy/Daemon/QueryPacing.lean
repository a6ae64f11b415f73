import Lixy.Daemon.IdlePasses

/-! How often the daemon asks for a destination because of packets: once, until the entry that
stands for the question is removed.
-/

namespace Lixy

open ByteStrings
open LongestPrefix (Store best)
open EventRuns (run Reachable)

-----------------------------------------------------------------------------------------
-- What removes an entry
-----------------------------------------------------------------------------------------

/-- The event removes the entry: the TTL thread because its ttl is used up, or a static delete
whose prefix it matches best.
-/
inductive Removes (lisp : Lisp) (e : Prefix × Mapnode) : Event → Prop
  | expiry (open_ : ¬ Sheltered lisp.rib.store e.1.key) (due : e.2.lifetime = 1)
      : Removes lisp e .sweep
  | delete {dst : Destination} {pfx : Prefix} (named : dst.dstPrefix = some pfx)
      (best : best lisp.rib.store pfx.key = some (e.1.key, e))
      (state : e.2.state ≠ .active ∧ e.2.state ≠ .queried)
      : Removes lisp e (.uninstallRoute dst)

section

variable {lisp lisp' : Lisp} {key : List Bool} {e : Prefix × Mapnode}

/-- What puts an entry leaves something stored under every key that had an entry. -/
theorem View.put_stored {v : View} (put : Prefix × Mapnode) (stored : v.store key ≠ none)
    : (v.put put).store key ≠ none := by
  rw [View.put_store]
  by_cases same : key = put.1.key
  · rw [same, LongestPrefix.insert_self]
    nofun
  · rw [LongestPrefix.insert_of_ne _ _ same]
    exact stored

/-- A writer that comes from a record leaves something stored under every key that had an entry.
-/
theorem RecordWriter.stored {pkt : List Byte} {record : Nat} {from_ v : View} {w : Writer}
    (source : RecordWriter pkt record from_ w) (stored : v.store key ≠ none)
    : (w.write v).store key ≠ none := by
  cases w with
  | idle => exact stored
  | stray pfx => exact stored
  | learn pfx put => exact View.put_stored put stored
  | refresh put => exact View.put_stored _ stored
  | deny pfx put => exact View.put_stored put stored
  | query _ _ => exact source.elim
  | pin _ _ => exact source.elim
  | unpin _ _ => exact source.elim
  | age _ => exact source.elim

/-- An entry that an event leaves no entry for, the event removes. -/
theorem step_removes {ev : Event} (ok : TableOk lisp.rib) (done : step lisp ev = .ok lisp')
    (stored : lisp.rib.store key = some e) (gone : lisp'.rib.store key = none)
    : Removes lisp e ev := by
  have there : lisp.view.store key ≠ none := by
    rw [show lisp.view.store key = some e from stored]
    nofun
  obtain ⟨_, same⟩ := ok.store_eq_some_iff.mp stored
  cases ev with
  | message len buf =>
      obtain ⟨_, ws, writes, kinds⟩ := lispMapMessageThread_writes ok done
      have keeps (v : View) (w : Writer) (stays : v.store key ≠ none)
          (kind : EventWriter (.message len buf) w) (_ : w.Enabled v)
          : (w.write v).store key ≠ none := by
        obtain ⟨_, _, source⟩ := kind
        exact source.stored stays
      exact absurd gone (writes.invariant kinds keeps there)
  | packet frame =>
      obtain ⟨_, _, w, _, view, source⟩ := lispRawPacketThread_writes ok done
      refine absurd gone (show lisp'.view.store key ≠ none from ?_)
      rw [view]
      rcases source with rfl | ⟨pfx, put, _, rfl⟩
      · exact there
      · exact View.put_stored put there
  | installRoute dst addr =>
      obtain ⟨_, _, w, _, view, source⟩ := cmdInstallRoute_writes ok done
      refine absurd gone (show lisp'.view.store key ≠ none from ?_)
      rw [view]
      rcases source with rfl | ⟨pfx, put, _, rfl, _⟩
      · exact there
      · exact View.put_stored put there
  | uninstallRoute dst =>
      obtain ⟨_, _, w, enabled, view, source⟩ := cmdUninstallRoute_writes ok done
      have left : (w.write lisp.view).store key = none := view ▸ gone
      rcases source with rfl | ⟨pfx, old, named, rfl⟩
      · exact absurd left there
      · obtain ⟨best, state⟩ := enabled
        have here : key = old.1.key := by
          by_contra other
          exact there ((LongestPrefix.erase_of_ne lisp.view.store other).symm.trans left)
        have held : lisp.rib.store key = some old :=
          here ▸ (LongestPrefix.best_eq_some_iff.mp best).stored
        obtain rfl := Option.some.inj (stored.symm.trans held)
        exact .delete named best state
  | sweep =>
      obtain ⟨w, swept, done⟩ := bind_eq_ok.mp done
      obtain rfl := pure_eq_ok.mp done
      rcases sweep_cases ok with ⟨⟨f, failed⟩, _⟩ | ⟨w', swept', after, _, view, log⟩
      · cases failed.symm.trans swept
      · obtain rfl := Except.ok.inj (swept.symm.trans swept')
        have passed : Passed lisp w := ⟨ok, after, view, log⟩
        by_cases sheltered : Sheltered lisp.rib.store key
        · rw [passed.sheltered sheltered, stored] at gone
          cases gone
        · have dynamic := dynamic_of_unsheltered stored sheltered
          rw [passed.unsheltered sheltered, stored, Option.bind_some] at gone
          split at gone
          · next due =>
              exact .expiry (same ▸ sheltered) ((Mapnode.expires_iff_lifetime dynamic).mp due)
          · cases gone

end

-----------------------------------------------------------------------------------------
-- Packets that ask
-----------------------------------------------------------------------------------------

/-- The daemon asks for the destination of an observed packet. -/
structure AsksFor (lisp : Lisp) (frame : RawPacket) (d : Prefix) (lisp' : Lisp) : Prop where
  done : step lisp (.packet frame) = .ok lisp'
  asked : lisp'.mapRequests = d :: lisp.mapRequests

section

variable {lisp lisp' : Lisp} {frame : RawPacket} {d : Prefix}

/-- The daemon asks where nothing covers the destination, and leaves a QUERIED entry for it. -/
theorem AsksFor.queries (ok : TableOk lisp.rib) (asks : AsksFor lisp frame d lisp')
    : frame.dstprefix = some d ∧ best lisp.rib.store d.key = none
      ∧ ∃ e, lisp'.rib.store d.key = some e ∧ e.2.state = .queried := by
  obtain ⟨done, asked⟩ := asks
  have silent {x : Prefix} {l : List Prefix} (same : l = x :: l) : False :=
    List.cons_ne_self x l same.symm
  rw [step, lispRawPacketThread] at done
  split at done
  · obtain rfl := Except.ok.inj done
    exact (silent asked).elim
  · next dst destination =>
      have valid := RawPacket.dstprefix_valid destination
      obtain ⟨hit, search, done⟩ := bind_eq_ok.mp done
      cases hit with
      | some _ =>
          obtain rfl := pure_eq_ok.mp done
          exact (silent asked).elim
      | none =>
          obtain ⟨missed, _⟩ | ⟨_, _, _, hit, _⟩ := searchMapnode_spec ok valid.bitlen_le
          · obtain ⟨rib, install, done⟩ := bind_eq_ok.mp done
            obtain rfl := pure_eq_ok.mp done
            obtain rfl : dst = d := (List.cons.inj asked).1
            obtain ⟨_, _, e, ⟨puts, _, queried⟩, view⟩ :=
              installMapnodeQueried_writes ok valid missed install
            have store : rib.store = LongestPrefix.insert lisp.rib.store e.1.key e :=
              congrArg View.store view
            refine ⟨destination, missed, e, ?_, queried⟩
            rw [sendMapRequest, store, puts.key]
            exact LongestPrefix.insert_self _ _ _
          · cases hit.symm.trans search

end

/-- Between two packets that make the daemon ask for one destination, an event removes the entry
that the first one left there.
-/
theorem asks_once {s₀ s₁ s₂ s₃ : Lisp} {frame frame' : RawPacket} {d d' : Prefix}
    {between : List Event} (reachable : Reachable step Lisp.start s₀)
    (first : AsksFor s₀ frame d s₁) (ran : run step s₁ between = .ok s₂)
    (second : AsksFor s₂ frame' d' s₃) (same : d'.key = d.key)
    : ∃ before ev after middle next e, between = before ++ ev :: after
        ∧ run step s₁ before = .ok middle ∧ step middle ev = .ok next
        ∧ run step next after = .ok s₂
        ∧ middle.rib.store d.key = some e ∧ Removes middle e ev
        ∧ next.rib.store d.key = none := by
  have ok := tableOk_of_reachable reachable
  have ok₁ := (step_writes ok first.done).1
  obtain ⟨_, _, e, left, _⟩ := first.queries ok
  have arises (s : Lisp) (ev : Event) (next : Lisp) (inv : TableOk s.rib)
      (done : step s ev = .ok next) (gone : next.rib.store d.key = none)
      : s.rib.store d.key = none
        ∨ ∃ e, s.rib.store d.key = some e ∧ Removes s e ev := by
    cases stored : s.rib.store d.key with
    | none => exact .inl rfl
    | some e => exact .inr ⟨e, rfl, step_removes inv done stored gone⟩
  have missing : s₂.rib.store d.key = none := by
    have inv := EventRuns.run_invariant (fun _ _ _ inv done => (step_writes inv done).1) ok₁ ran
    obtain ⟨_, nothing, _⟩ := second.queries inv
    exact LongestPrefix.best_eq_none_iff.mp nothing _ (same ▸ List.prefix_rfl)
  rcases EventRuns.exists_origin (fun _ _ _ inv done => (step_writes inv done).1) arises ok₁ ran
      missing with ⟨absent, _⟩ | ⟨before, ev, after, middle, next, split, ran', done, rise, gone, _⟩
  · cases left.symm.trans absent
  · obtain ⟨e, stored, removes⟩ := rise
    refine ⟨before, ev, after, middle, next, e, split, ran', done, ?_, stored, removes, gone⟩
    rw [split] at ran
    obtain ⟨middle', ran'', rest⟩ := EventRuns.run_append_eq_ok.mp ran
    obtain rfl := Except.ok.inj (ran'.symm.trans ran'')
    obtain ⟨next', done', rest⟩ := EventRuns.run_cons_eq_ok.mp rest
    obtain rfl := Except.ok.inj (done.symm.trans done')
    exact rest

/-- Witness: the TTL thread removes the entry between two packets to 10.0.0.1. -/
theorem tenPacket_asks_twice
    : ∃ s₁ s₂ s₃ d, AsksFor Lisp.start tenPacket d s₁ ∧ run step s₁ [.sweep] = .ok s₂
        ∧ AsksFor s₂ tenPacket d s₃
        ∧ ∃ before ev after middle next e, [.sweep] = before ++ ev :: after
            ∧ run step s₁ before = .ok middle ∧ step middle ev = .ok next
            ∧ run step next after = .ok s₂
            ∧ middle.rib.store d.key = some e ∧ Removes middle e ev
            ∧ next.rib.store d.key = none := by
  obtain ⟨s₁, s₂, s₃, d, first, ran, second⟩ : ∃ s₁ s₂ s₃ d, AsksFor Lisp.start tenPacket d s₁
      ∧ run step s₁ [.sweep] = .ok s₂ ∧ AsksFor s₂ tenPacket d s₃ :=
    ⟨_, _, _, _, ⟨rfl, rfl⟩, rfl, ⟨rfl, rfl⟩⟩
  exact ⟨s₁, s₂, s₃, d, first, ran, second,
    asks_once (Reachable.init Lisp.start) first ran second rfl⟩

end Lixy
