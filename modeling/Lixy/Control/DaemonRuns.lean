import Mathlib.Data.List.ReduceOption
import Lixy.Control.ArgumentSafety
import Lixy.Control.DistinctEntries
import Lixy.Messages.BufferBounds

/-! The whole daemon: the control thread beside the threads that work on the map table. To the
map table, a run of the daemon is a run of events, in which a control message is a route command
or nothing.
-/

namespace Lixy.Control

open ByteStrings
open EventRuns (run Reachable)

-----------------------------------------------------------------------------------------
-- Turns
-----------------------------------------------------------------------------------------

/-- One round of the loop of a thread that changes what the threads share. -/
inductive Turn
  /-- `lisp_op_thread`: what its variables hold, and the message it reads -/
  | op (junk : Junk) (msg : List Byte)
  /-- `lisp_map_message_thread`: `recv` put `len` bytes at the start of `buf`. -/
  | mapMessage (len : Nat) (buf : List Byte)
  /-- `lisp_raw_packet_thread` -/
  | rawPacket (frame : RawPacket)
  /-- `lisp_maptable_thread` -/
  | maptable

/-- The daemon after a turn. -/
def daemonStep (lib : Library) (st : Lixyd) : Turn → Except CommandFault Lixyd
  | .op junk msg => do
      let (_, st) ← lispOpThread lib junk msg st
      return st
  | .mapMessage len buf => do
      let lisp ← call (lispMapMessageThread len buf st.lisp)
      return { st with lisp }
  | .rawPacket frame => do
      let lisp ← call (lispRawPacketThread frame st.lisp)
      return { st with lisp }
  | .maptable => do
      let w ← call (sweep st.lisp)
      return { st with lisp := w.st }

-----------------------------------------------------------------------------------------
-- What a turn is to the map table
-----------------------------------------------------------------------------------------

/-- The destination is what a route command's words stand for. -/
structure ReadAs (lib : Library) (args : Args) (dst : Destination) (text : List Byte) : Prop where
  family : routeFamily (args 1) = .ok (some dst.family)
  given : args 2 = some text
  bitlen : bitlenOf text = .ok dst.bitlen
  address
    : (if dst.family = afInet then myInetPton (text.takeWhile (· ≠ 0x2f))
        else lib.inetPton6 (text.takeWhile (· ≠ 0x2f)))
      = some dst.address

/-- The event that a `route` command is to the map table. -/
inductive RouteEvent (lib : Library) (args : Args) : Event → Prop
  | install {dst : Destination} {text : List Byte} {res : AiAddr}
      (read : ReadAs lib args dst text)
      (resolved : lib.getaddrinfo (args 3) lispDataPort = some res)
      : RouteEvent lib args (.installRoute dst (res.copyTo .zero))
  | uninstall {dst : Destination} {text : List Byte} (read : ReadAs lib args dst text)
      (delete : args 3 = some (ascii "delete"))
      : RouteEvent lib args (.uninstallRoute dst)

/-- What a turn is to the map table: an event, or nothing. -/
inductive Shows (lib : Library) : Turn → Option Event → Prop
  | route {junk : Junk} {msg : List Byte} {words : List (List Byte)} {ev : Event}
      (split : splitMessage msg = .ok (some words))
      (word : searchCmdNode words[0]? = some .route) (event : RouteEvent lib (words[·]?) ev)
      : Shows lib (.op junk msg) (some ev)
  | unrelated (junk : Junk) (msg : List Byte) : Shows lib (.op junk msg) none
  | mapMessage (len : Nat) (buf : List Byte)
      : Shows lib (.mapMessage len buf) (some (.message len buf))
  | rawPacket (frame : RawPacket) : Shows lib (.rawPacket frame) (some (.packet frame))
  | maptable : Shows lib .maptable (some .sweep)

/-- Where the computation returns, the map table and the routes are as they were. -/
def KeepsTable (st : Lixyd) (x : Except CommandFault (ReturnType × Lixyd)) : Prop :=
  ∀ res st', x = .ok (res, st') → st'.lisp = st.lisp

section

variable {st : Lixyd}

theorem keepsTable_answer {res : ReturnType} {st' : Lixyd} (same : st'.lisp = st.lisp)
    : KeepsTable st (answer res st') := by
  rintro _ _ ⟨⟩
  exact same

theorem keepsTable_bind {α : Type} {x : Except CommandFault α}
    {f : α → Except CommandFault (ReturnType × Lixyd)} (next : ∀ a, KeepsTable st (f a))
    : KeepsTable st (x >>= f) := by
  intro res st' done
  obtain ⟨a, _, done⟩ := bind_eq_ok.mp done
  exact next a res st' done

theorem keepsTable_ite {c : Prop} [Decidable c] {x y : Except CommandFault (ReturnType × Lixyd)}
    (holds : KeepsTable st x) (fails : KeepsTable st y)
    : KeepsTable st (if c then x else y) := by
  split
  · exact holds
  · exact fails

end

section

variable (lib : Library) (junk : Junk) (args : Args) (st : Lixyd)

theorem configMapServer_keepsTable : KeepsTable st (configMapServer lib junk args st) := by
  unfold configMapServer
  refine keepsTable_ite ?_ (keepsTable_bind fun _ => keepsTable_ite ?_ (keepsTable_answer rfl))
  · rw [cmdSetMapServer_eq]
    cases lib.getaddrinfo (args 1) lispControlPort with
    | none => exact keepsTable_answer rfl
    | some res => exact keepsTable_answer rfl
  · rw [cmdDeleteMapServer_eq]
    cases lib.getaddrinfo (args 1) lispControlPort with
    | none => exact keepsTable_answer rfl
    | some res =>
        rw [Option.bind_some, unsetLispMapserver]
        cases searchListnode st.mapsrvTuple (· == res.copyTo junk.sockaddr) with
        | none => exact keepsTable_answer rfl
        | some hit => exact keepsTable_answer rfl

theorem configLocator_keepsTable : KeepsTable st (configLocator lib junk args st) := by
  unfold configLocator
  refine keepsTable_ite (keepsTable_answer rfl) (keepsTable_bind fun _ => keepsTable_ite ?_ ?_)
  · unfold cmdCreateLocator
    split
    · exact keepsTable_answer rfl
    · dsimp only
      split <;> exact keepsTable_answer rfl
  · refine keepsTable_bind fun _ => keepsTable_ite ?_ ?_
    · unfold cmdDeleteLocator
      cases lib.getaddrinfo (args 1) lispControlPort with
      | none => exact keepsTable_answer rfl
      | some res =>
          dsimp only
          rw [unsetLispLocator]
          cases searchListnode st.locTuple fun loc =>
              compareSockaddr loc.locAddr (res.copyTo junk.sockaddr) with
          | none => exact keepsTable_answer rfl
          | some hit => exact keepsTable_answer rfl
    · unfold cmdSetLocatorParamater
      refine keepsTable_ite (keepsTable_answer rfl) ?_
      split
      · exact keepsTable_answer rfl
      · split
        · exact keepsTable_answer rfl
        · refine keepsTable_bind fun param => ?_
          cases param with
          | none => exact keepsTable_answer rfl
          | some param => exact keepsTable_bind fun _ => keepsTable_answer rfl

theorem cmdSetEidPrefix_keepsTable : KeepsTable st (cmdSetEidPrefix lib junk args st) := by
  unfold cmdSetEidPrefix
  split
  · split
    · exact keepsTable_answer rfl
    · refine keepsTable_bind fun parsed => ?_
      cases parsed with
      | none => exact keepsTable_answer rfl
      | some pfx =>
          dsimp only
          split <;> exact keepsTable_answer rfl
  · exact keepsTable_answer rfl

theorem cmdUnsetEidPrefix_keepsTable : KeepsTable st (cmdUnsetEidPrefix lib junk args st) := by
  unfold cmdUnsetEidPrefix
  split
  · split
    · exact keepsTable_answer rfl
    · refine keepsTable_bind fun parsed => ?_
      cases parsed with
      | none => exact keepsTable_answer rfl
      | some pfx =>
          dsimp only
          split <;> exact keepsTable_answer rfl
  · exact keepsTable_answer rfl

theorem configEid_keepsTable : KeepsTable st (configEid lib junk args st) := by
  unfold configEid
  refine keepsTable_ite (keepsTable_answer rfl) (keepsTable_bind fun _ => ?_)
  refine keepsTable_ite ?_ (keepsTable_bind fun _ => ?_)
  · unfold cmdCreateEid
    refine keepsTable_bind fun _ => ?_
    split <;> exact keepsTable_answer rfl
  refine keepsTable_ite ?_ (keepsTable_bind fun _ => ?_)
  · unfold cmdDeleteEid
    refine keepsTable_bind fun _ => ?_
    split <;> exact keepsTable_answer rfl
  refine keepsTable_ite ?_ (keepsTable_bind fun _ => ?_)
  · unfold cmdSetEidAuthenticationKey
    refine keepsTable_bind fun _ => ?_
    split
    · exact keepsTable_answer rfl
    · refine keepsTable_bind fun _ => keepsTable_ite (keepsTable_answer rfl) ?_
      exact keepsTable_bind fun _ => keepsTable_answer rfl
  refine keepsTable_ite ?_ (keepsTable_answer rfl)
  refine keepsTable_ite (cmdSetEidPrefix_keepsTable _ _ _ _) (keepsTable_bind fun _ => ?_)
  exact keepsTable_ite (cmdUnsetEidPrefix_keepsTable _ _ _ _) (keepsTable_answer rfl)

end

section

variable {lib : Library} {args : Args} {st st' : Lixyd} {res : ReturnType}

/-- The prefix that a route command's words are read into is that of a destination. -/
theorem exists_readAs {family : Nat} {text : List Byte} {pfx : Prefix}
    (named : routeFamily (args 1) = .ok (some family)) (given : args 2 = some text)
    (read : ascii2prefix lib.inetPton6 family text = .ok (some pfx))
    : ∃ dst, ReadAs lib args dst text ∧ dst.dstPrefix = some pfx := by
  obtain ⟨bitlen, length, read⟩ := bind_eq_ok.mp read
  obtain ⟨address, parsed, destination⟩ := Option.bind_eq_some_iff.mp (pure_eq_ok.mp read)
  exact ⟨⟨family, address, bitlen⟩, ⟨named, given, length, parsed⟩, destination⟩

/-- Deleting a route is an event, or leaves the table and the routes as they were. -/
theorem cmdUninstallRoute_event (delete : args 3 = some (ascii "delete"))
    (done : cmdUninstallRoute lib args st = .ok (res, st'))
    : st'.lisp = st.lisp ∨ ∃ ev, RouteEvent lib args ev ∧ step st.lisp ev = .ok st'.lisp := by
  unfold cmdUninstallRoute at done
  obtain ⟨family, named, done⟩ := bind_eq_ok.mp done
  split at done
  · exact .inl (keepsTable_answer rfl res st' done)
  · obtain ⟨text, given, done⟩ := bind_eq_ok.mp done
    obtain ⟨parsed, read, done⟩ := bind_eq_ok.mp done
    split at done
    · exact .inl (keepsTable_answer rfl res st' done)
    · obtain ⟨removal, uninstalled, done⟩ := bind_eq_ok.mp done
      obtain ⟨dst, readAs, destination⟩ :=
        exists_readAs named (present_eq_ok.mp given) (call_eq_ok.mp read)
      refine .inr ⟨_, .uninstall readAs delete, ?_⟩
      have left : st'.lisp = removal.1 := by
        split at done
        · cases done
          rfl
        · cases done
          rfl
      rw [left]
      simp only [step, Lixy.cmdUninstallRoute, destination, call_eq_ok.mp uninstalled]
      rfl

/-- Installing a route is an event, or leaves the table and the routes as they were. -/
theorem cmdInstallRoute_event (done : cmdInstallRoute lib args st = .ok (res, st'))
    : st'.lisp = st.lisp ∨ ∃ ev, RouteEvent lib args ev ∧ step st.lisp ev = .ok st'.lisp := by
  unfold cmdInstallRoute at done
  obtain ⟨family, named, done⟩ := bind_eq_ok.mp done
  split at done
  · exact .inl (keepsTable_answer rfl res st' done)
  · split at done
    · exact .inl (keepsTable_answer rfl res st' done)
    · next resolved =>
        obtain ⟨text, given, done⟩ := bind_eq_ok.mp done
        obtain ⟨parsed, read, done⟩ := bind_eq_ok.mp done
        split at done
        · exact .inl (keepsTable_answer rfl res st' done)
        · obtain ⟨lisp, installed, done⟩ := bind_eq_ok.mp done
          obtain ⟨dst, readAs, destination⟩ :=
            exists_readAs named (present_eq_ok.mp given) (call_eq_ok.mp read)
          refine .inr ⟨_, .install readAs resolved, ?_⟩
          cases done
          rw [step, Lixy.cmdInstallRoute, destination]
          exact call_eq_ok.mp installed

/-- A `route` command is an event, or leaves the table and the routes as they were. -/
theorem configRoute_event (done : configRoute lib args st = .ok (res, st'))
    : st'.lisp = st.lisp ∨ ∃ ev, RouteEvent lib args ev ∧ step st.lisp ev = .ok st'.lisp := by
  unfold configRoute at done
  split at done
  · exact .inl (keepsTable_answer rfl res st' done)
  · obtain ⟨delete, compared, done⟩ := bind_eq_ok.mp done
    split at done
    · next same => exact cmdUninstallRoute_event ((strcmp_eq_ok.mp compared).2.mp same) done
    · exact cmdInstallRoute_event done

/-- A control message is a route command that is an event, or leaves the table and the routes as
they were.
-/
theorem lispOpThread_event {junk : Junk} {msg : List Byte}
    (done : lispOpThread lib junk msg st = .ok (res, st'))
    : st'.lisp = st.lisp
      ∨ ∃ ev, Shows lib (.op junk msg) (some ev) ∧ step st.lisp ev = .ok st'.lisp := by
  obtain ⟨words, split, done⟩ := bind_eq_ok.mp done
  cases words with
  | none => exact .inl (keepsTable_answer rfl res st' done)
  | some words =>
      change execCommand lib junk (words[·]?) st = .ok (res, st') at done
      unfold execCommand at done
      cases command : searchCmdNode words[0]? with
      | none =>
          rw [command] at done
          exact .inl (keepsTable_answer rfl res st' done)
      | some node =>
          rw [command] at done
          cases node with
          | mapserver => exact .inl (configMapServer_keepsTable lib junk _ st res st' done)
          | locator => exact .inl (configLocator_keepsTable lib junk _ st res st' done)
          | eid => exact .inl (configEid_keepsTable lib junk _ st res st' done)
          | listing =>
              have kept := @CmdNode.func_kept lib junk _ st st' .listing res done (.inr rfl)
              exact .inl (congrArg Lixyd.lisp kept)
          | route =>
              refine (configRoute_event done).imp_right ?_
              rintro ⟨ev, event, stepped⟩
              exact ⟨ev, .route (call_eq_ok.mp split) command event, stepped⟩

end

-----------------------------------------------------------------------------------------
-- Runs
-----------------------------------------------------------------------------------------

section

variable {lib : Library} {st st' : Lixyd}

/-- To the map table a turn is what it shows. -/
theorem daemonStep_shows {turn : Turn} (done : daemonStep lib st turn = .ok st')
    : ∃ shown, Shows lib turn shown ∧ run step st.lisp shown.toList = .ok st'.lisp := by
  have single {ev : Event} (stepped : step st.lisp ev = .ok st'.lisp)
      : run step st.lisp [ev] = .ok st'.lisp :=
    EventRuns.run_cons_eq_ok.mpr ⟨_, stepped, rfl⟩
  cases turn with
  | op junk msg =>
      obtain ⟨⟨res, after⟩, answered, done⟩ := bind_eq_ok.mp done
      obtain rfl := pure_eq_ok.mp done
      rcases lispOpThread_event answered with kept | ⟨ev, shows, stepped⟩
      · exact ⟨none, .unrelated junk msg, congrArg _ kept.symm⟩
      · exact ⟨some ev, shows, single stepped⟩
  | mapMessage len buf =>
      obtain ⟨lisp, processed, done⟩ := bind_eq_ok.mp done
      obtain rfl := pure_eq_ok.mp done
      exact ⟨_, .mapMessage len buf, single (call_eq_ok.mp processed)⟩
  | rawPacket frame =>
      obtain ⟨lisp, processed, done⟩ := bind_eq_ok.mp done
      obtain rfl := pure_eq_ok.mp done
      exact ⟨_, .rawPacket frame, single (call_eq_ok.mp processed)⟩
  | maptable =>
      obtain ⟨w, swept, done⟩ := bind_eq_ok.mp done
      obtain rfl := pure_eq_ok.mp done
      refine ⟨_, .maptable, single ?_⟩
      rw [step, call_eq_ok.mp swept]
      rfl

/-- To the map table a run of the daemon is the run of the events that its turns show, in their
order; by induction on the turns.
-/
theorem daemon_shows {turns : List Turn} (done : run (daemonStep lib) st turns = .ok st')
    : ∃ shown, List.Forall₂ (Shows lib) turns shown
        ∧ run step st.lisp shown.reduceOption = .ok st'.lisp := by
  induction turns generalizing st with
  | nil =>
      obtain rfl : st = st' := by simpa using done
      exact ⟨[], .nil, rfl⟩
  | cons turn rest ih =>
      obtain ⟨next, first, done⟩ := EventRuns.run_cons_eq_ok.mp done
      obtain ⟨now, shows, stepped⟩ := daemonStep_shows first
      obtain ⟨later, others, ran⟩ := ih done
      refine ⟨now :: later, .cons shows others, ?_⟩
      cases now with
      | none =>
          rw [List.reduceOption_cons_of_none]
          have same : st.lisp = next.lisp := by simpa using stepped
          rw [same]
          exact ran
      | some ev =>
          rw [List.reduceOption_cons_of_some]
          exact EventRuns.run_append_eq_ok.mpr ⟨next.lisp, stepped, ran⟩

end

/-- Turns for testing: a route is given and shown, and the TTL thread passes. -/
def siteTurns : List Turn :=
  [.op testJunk (ascii " route ipv4 10.0.0.0/8 192.0.2.1"), .op testJunk (ascii " show locator"),
    .maptable]

/-- Witness: to the map table these turns are the route and the pass. -/
theorem siteTurns_shown
    : ∃ st shown, run (daemonStep testLibrary) .start siteTurns = .ok st
        ∧ List.Forall₂ (Shows testLibrary) siteTurns shown
        ∧ run step Lisp.start shown.reduceOption = .ok st.lisp := by
  have route : splitMessage (ascii " route ipv4 10.0.0.0/8 192.0.2.1")
      = .ok (some [ascii "route", ascii "ipv4", ascii "10.0.0.0/8", ascii "192.0.2.1"]) :=
    splitMessage_words [ascii "route", ascii "ipv4", ascii "10.0.0.0/8", ascii "192.0.2.1"] nofun
      (by decide) (by decide) (by decide)
  have locators : splitMessage (ascii " show locator")
      = .ok (some [ascii "show", ascii "locator"]) :=
    splitMessage_words [ascii "show", ascii "locator"] nofun (by decide) (by decide) (by decide)
  obtain ⟨st, done⟩ : ∃ st, run (daemonStep testLibrary) .start siteTurns = .ok st := by
    simp only [siteTurns, run, daemonStep, lispOpThread_words route, lispOpThread_words locators]
    exact ⟨_, rfl⟩
  obtain ⟨shown, shows, ran⟩ := daemon_shows done
  exact ⟨st, shown, done, shows, ran⟩

end Lixy.Control
