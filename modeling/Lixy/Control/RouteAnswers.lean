import Lixy.Daemon.ValidEvents
import Lixy.Control.CommandEffects

/-! What the answer SUCCESS to a static route command says about the map table and the routes,
and when it is true.
-/

namespace Lixy.Control

open ByteStrings
open LongestPrefix (best)
open EventRuns (run Reachable)

-----------------------------------------------------------------------------------------
-- The prefix of a command
-----------------------------------------------------------------------------------------

/-- The prefix that a route command is about. -/
def NamesPrefix (lib : Library) (args : Args) (pfx : Prefix) : Prop :=
  ∃ family text, routeFamily (args 1) = .ok (some family) ∧ args 2 = some text
    ∧ ascii2prefix lib.inetPton6 family text = .ok (some pfx)

section

variable {lib : Library} {args : Args} {st st' : Lixyd}

/-- A prefix that a route command names is valid: its length is cut to the family's. -/
theorem NamesPrefix.valid {pfx : Prefix} (named : NamesPrefix lib args pfx) : pfx.Valid := by
  obtain ⟨_, _, _, _, parsed⟩ := named
  exact ascii2prefix_valid parsed

/-- A route that was installed. -/
theorem cmdInstallRoute_success (done : cmdInstallRoute lib args st = .ok (.success, st'))
    : ∃ pfx res lisp, NamesPrefix lib args pfx
        ∧ lib.getaddrinfo (args 3) lispDataPort = some res
        ∧ installMapnodeStatic st.lisp pfx (res.copyTo .zero) = .ok lisp
        ∧ st' = { st with lisp } := by
  unfold cmdInstallRoute at done
  obtain ⟨family, named, done⟩ := bind_eq_ok.mp done
  split at done
  · cases done
  · split at done
    · cases done
    · next res resolved =>
        obtain ⟨text, given, done⟩ := bind_eq_ok.mp done
        obtain ⟨parsed, read, done⟩ := bind_eq_ok.mp done
        split at done
        · cases done
        · next pfx =>
            obtain ⟨lisp, installed, done⟩ := bind_eq_ok.mp done
            cases done
            exact ⟨pfx, res, lisp, ⟨_, text, named, present_eq_ok.mp given, call_eq_ok.mp read⟩,
              resolved, call_eq_ok.mp installed, rfl⟩

/-- A route that was deleted. -/
theorem cmdUninstallRoute_success (done : cmdUninstallRoute lib args st = .ok (.success, st'))
    : ∃ pfx lisp, NamesPrefix lib args pfx
        ∧ uninstallMapnodeStatic st.lisp pfx = .ok (lisp, true)
        ∧ st' = { st with lisp } := by
  unfold cmdUninstallRoute at done
  obtain ⟨family, named, done⟩ := bind_eq_ok.mp done
  split at done
  · cases done
  · obtain ⟨text, given, done⟩ := bind_eq_ok.mp done
    obtain ⟨parsed, read, done⟩ := bind_eq_ok.mp done
    split at done
    · cases done
    · next pfx =>
        obtain ⟨removal, uninstalled, done⟩ := bind_eq_ok.mp done
        split at done
        · cases done
        · next lisp =>
            cases done
            exact ⟨pfx, lisp, ⟨_, text, named, present_eq_ok.mp given, call_eq_ok.mp read⟩,
              call_eq_ok.mp uninstalled, rfl⟩

end

-----------------------------------------------------------------------------------------
-- What the answer says
-----------------------------------------------------------------------------------------

/-- The entry at the prefix is STATIC with the address, those at other prefixes are as before. -/
def Installed (lisp lisp' : Lisp) (pfx : Prefix) (addr : SockaddrStorage) : Prop :=
  (∃ e, entryAt lisp' pfx.family pfx.key = some e ∧ e.2.state = .static ∧ e.2.addr = addr)
    ∧ ∀ family key, (family, key) ≠ (pfx.family, pfx.key)
      → entryAt lisp' family key = entryAt lisp family key

/-- The entry at the prefix was STATIC; it and the prefix's route are gone, and nothing else. -/
def Deleted (lisp lisp' : Lisp) (pfx : Prefix) : Prop :=
  (∃ e, entryAt lisp pfx.family pfx.key = some e ∧ e.2.state = .static)
    ∧ entryAt lisp' pfx.family pfx.key = none
    ∧ (∀ family key, (family, key) ≠ (pfx.family, pfx.key)
      → entryAt lisp' family key = entryAt lisp family key)
    ∧ ∀ route, route ∈ lisp'.routes ↔ route ∈ lisp.routes ∧ route ≠ pfx.route

section

variable {lisp lisp' : Lisp} {pfx : Prefix} {family : Nat} {key : List Bool} {e : Prefix × Mapnode}

/-- An install command tells the truth where nothing is stored under the prefix's leading bits,
or an entry of its family is that may be replaced or has the address already.
-/
theorem installed_iff {addr : SockaddrStorage} (ok : TableOk lisp.rib) (valid : pfx.Valid)
    (done : installMapnodeStatic lisp pfx addr = .ok lisp')
    : Installed lisp lisp' pfx addr
      ↔ ∀ e, lisp.rib.store pfx.key = some e
        → e.1.family = pfx.family ∧ (e.2.state = .static → e.2.addr = addr) := by
  obtain ⟨_, _, ⟨same, old, there, static⟩ | ⟨e, ⟨puts, static⟩, view, address⟩⟩ :=
    installMapnodeStatic_cases ok valid done
  · -- a STATIC entry was left alone
    have store : lisp'.rib.store = lisp.rib.store := congrArg View.store same
    have kept (family : Nat) (key : List Bool)
        : entryAt lisp' family key = entryAt lisp family key :=
      entryAt_congr (by rw [store])
    rw [Installed, kept]
    constructor
    · rintro ⟨⟨e, at_pfx, _, address⟩, _⟩ e' there'
      obtain ⟨there'', family⟩ := entryAt_eq_some.mp at_pfx
      obtain rfl := Option.some.inj (there'.symm.trans there'')
      exact ⟨family, fun _ => address⟩
    · intro agrees
      obtain ⟨family, address⟩ := agrees old there
      exact ⟨⟨old, entryAt_eq_some.mpr ⟨there, family⟩, static, address static⟩,
        fun family key _ => kept family key⟩
  · have store : lisp'.rib.store = LongestPrefix.insert lisp.rib.store pfx.key e := by
      change lisp'.view.store = _
      rw [view, ← puts.key]
      rfl
    constructor
    · rintro ⟨⟨e', at_pfx, _⟩, _⟩ old there
      obtain ⟨there', family⟩ := entryAt_eq_some.mp at_pfx
      rw [store, LongestPrefix.insert_self] at there'
      obtain rfl := Option.some.inj there'
      rw [puts.old old there] at family
      exact ⟨family, fun static => absurd static (puts.movable old there)⟩
    · intro agrees
      have family : e.1.family = pfx.family := by
        cases there : lisp.rib.store pfx.key with
        | none => exact (refPrefix_eq_some (puts.fresh there) valid.copyable).1
        | some old =>
            rw [puts.old old there]
            exact (agrees old there).1
      obtain ⟨here, others⟩ := entryAt_insert store family fun old there => (agrees old there).1
      exact ⟨⟨e, here, static, address⟩, others⟩

/-- A delete command tells the truth where a STATIC entry is stored at exactly its prefix. -/
theorem deleted_iff (ok : TableOk lisp.rib) (valid : pfx.Valid)
    (done : uninstallMapnodeStatic lisp pfx = .ok (lisp', true))
    : Deleted lisp lisp' pfx
      ↔ ∃ e, entryAt lisp pfx.family pfx.key = some e ∧ e.2.state = .static := by
  refine ⟨fun deleted => deleted.1, fun there => ⟨there, ?_⟩⟩
  obtain ⟨own, at_pfx, _⟩ := there
  obtain ⟨stored, family⟩ := entryAt_eq_some.mp at_pfx
  have own_key : own.1.key = pfx.key := (ok.store_eq_some_iff.mp stored).2
  obtain ⟨_, _, ⟨failed, _⟩ | ⟨_, e, ⟨found, _⟩, view⟩⟩ :=
    uninstallMapnodeStatic_cases ok valid.bitlen_le done
  · cases failed
  · have self : best lisp.view.store pfx.key = some (pfx.key, own) := LongestPrefix.best_self stored
    obtain ⟨key, rfl⟩ := Prod.mk.inj (Option.some.inj (found.symm.trans self))
    have erased (key : List Bool)
        : lisp'.rib.store key = LongestPrefix.erase lisp.rib.store pfx.key key := by
      change lisp'.view.store key = _
      rw [view, ← own_key]
      rfl
    have gone : lisp'.rib.store pfx.key = none := by
      rw [erased]
      exact LongestPrefix.erase_self _ _
    have absent (family : Nat) : entryAt lisp' family pfx.key = none :=
      entryAt_eq_none (by simp [gone])
    refine ⟨absent _, fun family' key' ne => ?_, fun route => ?_⟩
    · by_cases same : key' = pfx.key
      · have other : pfx.family ≠ family' := fun eq => ne (by rw [eq, same])
        rw [same, absent, entryAt_eq_none fun e' there => ?_]
        obtain rfl := Option.some.inj (stored.symm.trans there)
        exact family ▸ other
      · refine entryAt_congr ?_
        rw [erased, LongestPrefix.erase_of_ne _ same]
    · change route ∈ lisp'.view.routes ↔ _
      rw [view]
      rfl

end

-----------------------------------------------------------------------------------------
-- The commands
-----------------------------------------------------------------------------------------

/-- When a route command on a reachable table is answered SUCCESS, what the answer says is true
exactly where the prefix's leading bits hold an entry as described. After any other answer
nothing has changed.
-/
theorem configRoute_true_iff {lib : Library} {args : Args} {st st' : Lixyd} {answer : ReturnType}
    (reach : Reachable step Lisp.start st.lisp)
    (done : configRoute lib args st = .ok (answer, st'))
    : (answer ≠ .success ∧ st' = st)
      ∨ (answer = .success ∧ ∃ pfx, NamesPrefix lib args pfx ∧ pfx.Valid
        ∧ (args 3 = some (ascii "delete")
            ∧ (Deleted st.lisp st'.lisp pfx
              ↔ ∃ e, entryAt st.lisp pfx.family pfx.key = some e ∧ e.2.state = .static)
          ∨ args 3 ≠ some (ascii "delete")
            ∧ ∃ res, lib.getaddrinfo (args 3) lispDataPort = some res
              ∧ (Installed st.lisp st'.lisp pfx (res.copyTo .zero)
                ↔ ∀ e, st.lisp.rib.store pfx.key = some e
                  → e.1.family = pfx.family
                    ∧ (e.2.state = .static → e.2.addr = res.copyTo .zero)))) := by
  have ok := tableOk_of_reachable reach
  by_cases failed : answer ≠ .success
  · exact .inl ⟨failed, configRoute_keptOnError _ _ _ _ _ done failed⟩
  · obtain rfl := not_not.mp failed
    refine .inr ⟨rfl, ?_⟩
    unfold configRoute at done
    split at done
    · cases done
    · obtain ⟨isDelete, compared, done⟩ := bind_eq_ok.mp done
      have compares := (strcmp_eq_ok.mp compared).2
      split at done
      · next same =>
          obtain ⟨pfx, lisp, named, uninstalled, rfl⟩ := cmdUninstallRoute_success done
          have valid := named.valid
          exact ⟨pfx, named, valid, .inl ⟨compares.mp same, deleted_iff ok valid uninstalled⟩⟩
      · next other =>
          obtain ⟨pfx, res, lisp, named, resolved, installed, rfl⟩ := cmdInstallRoute_success done
          have valid := named.valid
          exact ⟨pfx, named, valid, .inr ⟨fun same => other (compares.mpr same), res, resolved,
            installed_iff ok valid installed⟩⟩

/-- `route ipv4 10.0.0.0/8 192.0.2.1` -/
def testRoute : Args := wordsOf ["route", "ipv4", "10.0.0.0/8", "192.0.2.1"]

/-- `route ipv4 10.128.0.0/9 delete` -/
def nineDelete : Args := wordsOf ["route", "ipv4", "10.128.0.0/9", "delete"]

set_option maxRecDepth 4000 in
/-- Witness: the first route, over an entry that was learned; and a delete beside a shorter
static route, which stays.
-/
theorem testRoute_installed
    : (∃ lisp st pfx res, run step Lisp.start [.message 40 tenReply] = .ok lisp
        ∧ configRoute testLibrary testRoute { Lixyd.start with lisp } = .ok (.success, st)
        ∧ NamesPrefix testLibrary testRoute pfx
        ∧ testLibrary.getaddrinfo (testRoute 3) lispDataPort = some res
        ∧ Installed lisp st.lisp pfx (res.copyTo .zero))
      ∧ ∃ lisp st pfx,
        run step Lisp.start [.installRoute tenNet .zero, .installRoute nineNet .zero] = .ok lisp
        ∧ configRoute testLibrary nineDelete { Lixyd.start with lisp } = .ok (.success, st)
        ∧ NamesPrefix testLibrary nineDelete pfx ∧ Deleted lisp st.lisp pfx
        ∧ st.lisp.rib.entries.map (fun e => (e.1.bitlen, e.2.state)) = [(8, .static)] := by
  constructor
  · obtain ⟨lisp, st, ran, done, found⟩
        : ∃ lisp st, run step Lisp.start [.message 40 tenReply] = .ok lisp
          ∧ configRoute testLibrary testRoute { Lixyd.start with lisp } = .ok (.success, st)
          ∧ ∀ pfx, NamesPrefix testLibrary testRoute pfx
            → ∃ e, lisp.rib.store pfx.key = some e ∧ e.1.family = pfx.family
              ∧ e.2.state = .active := by
      refine ⟨_, _, rfl, rfl, ?_⟩
      rintro pfx ⟨family, text, named, given, parsed⟩
      cases named
      cases given
      cases parsed
      exact ⟨_, rfl, rfl, rfl⟩
    rcases configRoute_true_iff ⟨_, ran⟩ done
      with ⟨failed, _⟩ | ⟨_, pfx, named, _, ⟨isDelete, _⟩ | ⟨_, res, resolved, installed⟩⟩
    · exact absurd rfl failed
    · exact absurd isDelete (by decide)
    · refine ⟨lisp, st, pfx, res, ran, done, named, resolved, installed.mpr ?_⟩
      intro e' stored
      obtain ⟨e, there, family, active⟩ := found pfx named
      obtain rfl := Option.some.inj (there.symm.trans stored)
      refine ⟨family, fun static => ?_⟩
      rw [active] at static
      cases static
  · obtain ⟨lisp, st, ran, done, left, found⟩
        : ∃ lisp st,
          run step Lisp.start [.installRoute tenNet .zero, .installRoute nineNet .zero] = .ok lisp
          ∧ configRoute testLibrary nineDelete { Lixyd.start with lisp } = .ok (.success, st)
          ∧ st.lisp.rib.entries.map (fun e => (e.1.bitlen, e.2.state)) = [(8, .static)]
          ∧ ∀ pfx, NamesPrefix testLibrary nineDelete pfx
            → ∃ e, entryAt lisp pfx.family pfx.key = some e ∧ e.2.state = .static := by
      refine ⟨_, _, rfl, rfl, rfl, ?_⟩
      rintro pfx ⟨family, text, named, given, parsed⟩
      cases named
      cases given
      cases parsed
      exact ⟨_, rfl, rfl⟩
    rcases configRoute_true_iff ⟨_, ran⟩ done
      with ⟨failed, _⟩ | ⟨_, pfx, named, _, ⟨_, deleted⟩ | ⟨other, _⟩⟩
    · exact absurd rfl failed
    · exact ⟨lisp, st, pfx, ran, done, named, deleted.mpr (found pfx named), left⟩
    · exact absurd rfl other

/-- After the first route, the delete of 10.1.0.0/16 removes it, and a route for its prefix to
another address leaves it; both are answered SUCCESS.
-/
theorem testRoute_lies
    : ∃ st deleted kept, configRoute testLibrary testRoute .start = .ok (.success, st)
        ∧ configRoute testLibrary (wordsOf ["route", "ipv4", "10.1.0.0/16", "delete"]) st
          = .ok (.success, deleted)
        ∧ (∀ pfx, NamesPrefix testLibrary (wordsOf ["route", "ipv4", "10.1.0.0/16", "delete"]) pfx
          → ¬ Deleted st.lisp deleted.lisp pfx)
        ∧ configRoute testLibrary (wordsOf ["route", "ipv4", "10.0.0.0/8", "192.0.2.2"]) st
          = .ok (.success, kept)
        ∧ ∀ pfx res,
          NamesPrefix testLibrary (wordsOf ["route", "ipv4", "10.0.0.0/8", "192.0.2.2"]) pfx
          → testLibrary.getaddrinfo (some (ascii "192.0.2.2")) lispDataPort = some res
          → ¬ Installed st.lisp kept.lisp pfx (res.copyTo .zero) := by
  refine ⟨_, _, _, rfl, rfl, ?_, rfl, ?_⟩
  · rintro pfx ⟨family, text, named, given, parsed⟩ ⟨⟨e, at_pfx, _⟩, _⟩
    cases named
    cases given
    cases parsed
    cases at_pfx
  · rintro pfx res ⟨family, text, named, given, parsed⟩ resolved ⟨⟨e, at_pfx, _, address⟩, _⟩
    cases named
    cases given
    cases parsed
    cases at_pfx
    cases resolved
    cases address

end Lixy.Control
