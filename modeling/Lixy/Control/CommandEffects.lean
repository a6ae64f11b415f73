import Lixy.Control.OpThread

/-! What the commands change where they report an error, and what listings change: nothing.
-/

namespace Lixy.Control

open ByteStrings
open EventRuns (run)

-----------------------------------------------------------------------------------------
-- Computations that change nothing on an error
-----------------------------------------------------------------------------------------

/-- The daemon is `st` again wherever the computation returns anything but success. -/
def KeptOnError (st : Lixyd) (x : Except CommandFault (ReturnType × Lixyd)) : Prop :=
  ∀ res st', x = .ok (res, st') → res ≠ .success → st' = st

section

variable {st : Lixyd}

theorem keptOnError_answer (res : ReturnType) : KeptOnError st (answer res st) := by
  rintro _ _ ⟨⟩ _
  rfl

theorem keptOnError_success (st' : Lixyd) : KeptOnError st (answer .success st') := by
  rintro _ _ ⟨⟩ failed
  exact absurd rfl failed

/-- A sequence keeps the daemon when its continuation does. -/
theorem keptOnError_bind {α : Type} {x : Except CommandFault α}
    {f : α → Except CommandFault (ReturnType × Lixyd)}
    (next : ∀ a, x = .ok a → KeptOnError st (f a))
    : KeptOnError st (x >>= f) := by
  intro res st' done
  obtain ⟨a, returned, done⟩ := bind_eq_ok.mp done
  exact next a returned res st' done

theorem keptOnError_ite {c : Prop} [Decidable c]
    {x y : Except CommandFault (ReturnType × Lixyd)} (holds : KeptOnError st x)
    (fails : KeptOnError st y)
    : KeptOnError st (if c then x else y) := by
  split
  · exact holds
  · exact fails

end

-----------------------------------------------------------------------------------------
-- The commands
-----------------------------------------------------------------------------------------

section

variable (lib : Library) (junk : Junk) (args : Args) (st : Lixyd)

theorem cmdSetMapServer_keptOnError : KeptOnError st (cmdSetMapServer lib junk args st) := by
  unfold cmdSetMapServer
  split
  · exact keptOnError_answer _
  · split
    · exact keptOnError_answer _
    · exact keptOnError_success _

theorem cmdDeleteMapServer_keptOnError : KeptOnError st (cmdDeleteMapServer lib junk args st) := by
  unfold cmdDeleteMapServer
  split
  · exact keptOnError_answer _
  · split
    · exact keptOnError_answer _
    · exact keptOnError_success _

theorem configMapServer_keptOnError : KeptOnError st (configMapServer lib junk args st) := by
  unfold configMapServer
  refine keptOnError_ite (cmdSetMapServer_keptOnError _ _ _ _) (keptOnError_bind fun _ _ => ?_)
  exact keptOnError_ite (cmdDeleteMapServer_keptOnError _ _ _ _) (keptOnError_answer _)

theorem cmdCreateLocator_keptOnError : KeptOnError st (cmdCreateLocator lib args st) := by
  unfold cmdCreateLocator
  split
  · exact keptOnError_answer _
  · dsimp only
    split
    · exact keptOnError_answer _
    · exact keptOnError_success _

theorem cmdDeleteLocator_keptOnError : KeptOnError st (cmdDeleteLocator lib junk args st) := by
  unfold cmdDeleteLocator
  split
  · exact keptOnError_answer _
  · split
    · exact keptOnError_answer _
    · exact keptOnError_success _

theorem cmdSetLocatorParamater_keptOnError
    : KeptOnError st (cmdSetLocatorParamater lib junk args st) := by
  unfold cmdSetLocatorParamater
  refine keptOnError_ite (keptOnError_answer _) ?_
  split
  · exact keptOnError_answer _
  · split
    · exact keptOnError_answer _
    · refine keptOnError_bind fun param _ => ?_
      split
      · exact keptOnError_answer _
      · exact keptOnError_bind fun _ _ => keptOnError_success _

theorem configLocator_keptOnError : KeptOnError st (configLocator lib junk args st) := by
  unfold configLocator
  refine keptOnError_ite (keptOnError_answer _) (keptOnError_bind fun _ _ => ?_)
  refine keptOnError_ite (cmdCreateLocator_keptOnError _ _ _) (keptOnError_bind fun _ _ => ?_)
  exact keptOnError_ite (cmdDeleteLocator_keptOnError _ _ _ _)
    (cmdSetLocatorParamater_keptOnError _ _ _ _)

theorem cmdCreateEid_keptOnError : KeptOnError st (cmdCreateEid args st) := by
  unfold cmdCreateEid
  refine keptOnError_bind fun eidName _ => ?_
  split
  · exact keptOnError_answer _
  · exact keptOnError_success _

theorem cmdDeleteEid_keptOnError : KeptOnError st (cmdDeleteEid args st) := by
  unfold cmdDeleteEid
  refine keptOnError_bind fun eidName _ => ?_
  split
  · exact keptOnError_answer _
  · exact keptOnError_success _

theorem cmdSetEidAuthenticationKey_keptOnError
    : KeptOnError st (cmdSetEidAuthenticationKey args st) := by
  unfold cmdSetEidAuthenticationKey
  refine keptOnError_bind fun eidName _ => ?_
  split
  · exact keptOnError_answer _
  · refine keptOnError_bind fun key _ => keptOnError_ite (keptOnError_answer _) ?_
    exact keptOnError_bind fun _ _ => keptOnError_success _

theorem cmdSetEidPrefix_keptOnError : KeptOnError st (cmdSetEidPrefix lib junk args st) := by
  unfold cmdSetEidPrefix
  split
  · split
    · exact keptOnError_answer _
    · refine keptOnError_bind fun pfx _ => ?_
      split
      · exact keptOnError_answer _
      · split
        · exact keptOnError_answer _
        · exact keptOnError_success _
  · exact keptOnError_answer _

theorem cmdUnsetEidPrefix_keptOnError : KeptOnError st (cmdUnsetEidPrefix lib junk args st) := by
  unfold cmdUnsetEidPrefix
  split
  · split
    · exact keptOnError_answer _
    · refine keptOnError_bind fun pfx _ => ?_
      split
      · exact keptOnError_answer _
      · split
        · exact keptOnError_answer _
        · exact keptOnError_success _
  · exact keptOnError_answer _

theorem configEid_keptOnError : KeptOnError st (configEid lib junk args st) := by
  unfold configEid
  refine keptOnError_ite (keptOnError_answer _) (keptOnError_bind fun _ _ => ?_)
  refine keptOnError_ite (cmdCreateEid_keptOnError _ _) (keptOnError_bind fun _ _ => ?_)
  refine keptOnError_ite (cmdDeleteEid_keptOnError _ _) (keptOnError_bind fun _ _ => ?_)
  refine keptOnError_ite (cmdSetEidAuthenticationKey_keptOnError _ _)
    (keptOnError_bind fun _ _ => ?_)
  refine keptOnError_ite ?_ (keptOnError_answer _)
  refine keptOnError_ite (cmdSetEidPrefix_keptOnError _ _ _ _) (keptOnError_bind fun _ _ => ?_)
  exact keptOnError_ite (cmdUnsetEidPrefix_keptOnError _ _ _ _) (keptOnError_answer _)

theorem cmdInstallRoute_keptOnError : KeptOnError st (cmdInstallRoute lib args st) := by
  unfold cmdInstallRoute
  refine keptOnError_bind fun af _ => ?_
  split
  · exact keptOnError_answer _
  · split
    · exact keptOnError_answer _
    · refine keptOnError_bind fun _ _ => keptOnError_bind fun pfx _ => ?_
      split
      · exact keptOnError_answer _
      · exact keptOnError_bind fun _ _ => keptOnError_success _

/-- A static delete that reports an error has neither table nor routes changed. -/
theorem uninstallMapnodeStatic_refused {lisp lisp' : Lisp} {pfx : Prefix}
    (done : uninstallMapnodeStatic lisp pfx = .ok (lisp', false))
    : lisp' = lisp := by
  unfold uninstallMapnodeStatic at done
  obtain ⟨found, _, done⟩ := bind_eq_ok.mp done
  split at done
  · cases done
    rfl
  · split at done
    · cases done
      rfl
    · obtain ⟨_, _, done⟩ := bind_eq_ok.mp done
      cases done

theorem cmdUninstallRoute_keptOnError : KeptOnError st (cmdUninstallRoute lib args st) := by
  unfold cmdUninstallRoute
  refine keptOnError_bind fun af _ => ?_
  split
  · exact keptOnError_answer _
  · refine keptOnError_bind fun _ _ => keptOnError_bind fun pfx _ => ?_
    split
    · exact keptOnError_answer _
    · refine keptOnError_bind fun removal uninstalled => ?_
      split
      · next lisp =>
          rw [uninstallMapnodeStatic_refused (call_eq_ok.mp uninstalled)]
          exact keptOnError_answer _
      · exact keptOnError_success _

theorem configRoute_keptOnError : KeptOnError st (configRoute lib args st) := by
  unfold configRoute
  refine keptOnError_ite (keptOnError_answer _) (keptOnError_bind fun _ _ => ?_)
  exact keptOnError_ite (cmdUninstallRoute_keptOnError _ _ _) (cmdInstallRoute_keptOnError _ _ _)

end

-----------------------------------------------------------------------------------------
-- The listings
-----------------------------------------------------------------------------------------

section

variable {junk : Junk} {args : Args} {st st' : Lixyd} {res : ReturnType} {lines : List ShowLine}

/-- A visited node is only read. -/
theorem showRouteNode_kept {af : Nat} {state : Int} {shown shown' : List ShowLine × Lisp}
    {pn : Loc Mapnode} {broke : Bool}
    (done : showRouteNode af state shown pn = .ok (shown', broke))
    : shown'.2 = shown.2 := by
  unfold showRouteNode at done
  split at done
  · obtain ⟨selected, _, done⟩ := bind_eq_ok.mp done
    split at done
    · cases done
      rfl
    · split at done
      · cases done
        rfl
      · split at done
        · cases done
          rfl
        · cases done
  · cases done

theorem cmdShowRoute_kept {af : Nat} (done : cmdShowRoute junk args af st = .ok (res, lines, st'))
    : st' = st := by
  unfold cmdShowRoute at done
  obtain ⟨state, _, done⟩ := bind_eq_ok.mp done
  obtain ⟨walk, walked, done⟩ := bind_eq_ok.mp done
  have same : walk.st.2 = st.lisp :=
    @patriciaWalk_keeps _ _ _ _ (fun shown => shown.2 = st.lisp)
      (fun _ _ _ _ kept ran => (showRouteNode_kept ran).trans kept) _ _ _ rfl (call_eq_ok.mp walked)
  cases done
  rw [same]

theorem configShow_kept (done : configShow junk args st = .ok (res, lines, st')) : st' = st := by
  unfold configShow at done
  split at done
  · cases done
    rfl
  · obtain ⟨isRoute, _, done⟩ := bind_eq_ok.mp done
    split at done
    · exact cmdShowRoute_kept done
    · obtain ⟨isRoute6, _, done⟩ := bind_eq_ok.mp done
      split at done
      · exact cmdShowRoute_kept done
      · obtain ⟨isEid, _, done⟩ := bind_eq_ok.mp done
        split at done
        · unfold cmdShowEid at done
          split at done
          · split at done <;>
              · cases done
                rfl
          · cases done
            rfl
        · obtain ⟨isMapserver, _, done⟩ := bind_eq_ok.mp done
          split at done
          · cases done
            rfl
          · obtain ⟨isLocator, _, done⟩ := bind_eq_ok.mp done
            split at done <;>
              · cases done
                rfl

end

-----------------------------------------------------------------------------------------
-- Every command
-----------------------------------------------------------------------------------------

/-- A command that reports an error, and any listing, leaves the configuration, the map table
and the routes as they were.
-/
theorem CmdNode.func_kept {lib : Library} {junk : Junk} {args : Args} {st st' : Lixyd}
    {node : CmdNode} {res : ReturnType} (done : node.func lib junk args st = .ok (res, st'))
    (reads : res.IsError ∨ node = .listing)
    : st' = st := by
  cases node with
  | listing =>
      obtain ⟨⟨answer, lines, after⟩, shown, done⟩ := bind_eq_ok.mp done
      cases done
      exact configShow_kept shown
  | mapserver => exact configMapServer_keptOnError _ _ _ _ _ _ done (reads.resolve_right nofun).1
  | locator => exact configLocator_keptOnError _ _ _ _ _ _ done (reads.resolve_right nofun).1
  | eid => exact configEid_keptOnError _ _ _ _ _ _ done (reads.resolve_right nofun).1
  | route => exact configRoute_keptOnError _ _ _ _ _ done (reads.resolve_right nofun).1

/-- A library for testing that resolves dotted addresses only. -/
def testLibrary : Library where
  getaddrinfo node port := do
    let address ← myInetPton (← node)
    return .inet port (Lixy.sin address) (zeros 8)
  inetPton6 _ := none

/-- Zeroed variables for testing; freed memory stays as it was. -/
def testJunk : Junk := { sockaddr := .zero, addrbuf := zeros addrbuflen, state := 0, freed := id }

/-- The words of a command line. -/
def wordsOf (literals : List String) : Args := fun n => (literals.map ascii)[n]?

/-- Commands for testing that configure one of everything. -/
def wholeSite : List Arrival :=
  [[ascii "mapserver", ascii "192.0.2.9"],
    [ascii "locator", ascii "192.0.2.1", ascii "create"],
    [ascii "eid", ascii "a", ascii "create"],
    [ascii "eid", ascii "a", ascii "prefix", ascii "10.0.0.0/8"],
    [ascii "route", ascii "ipv4", ascii "10.128.0.0/9", ascii "192.0.2.3"]].map (testJunk, ·)

/-- Witness: once there is one of everything, three commands that are refused at their last
checks, and a listing.
-/
theorem wholeSite_kept
    : ∃ st mapserver, run (commandStep testLibrary) .start wholeSite = .ok st
        ∧ st.lisp.rib.entries.map (fun e => (e.1.bitlen, e.2.state)) = [(9, .static)]
        ∧ st.eidTuple.nodes.map (fun eid => eid.prefixTuple.nodes.length) = [1]
        ∧ st.locTuple.nodes.length = 1 ∧ st.mapsrvTuple.nodes = [mapserver]
        ∧ (∃ st', CmdNode.eid.func testLibrary testJunk
              (wordsOf ["eid", "a", "prefix", "10.1.0.0/16", "delete"]) st
            = .ok (.errAddressDoesNotExists, st') ∧ st' = st)
        ∧ (∃ st', CmdNode.locator.func testLibrary testJunk
              (wordsOf ["locator", "192.0.2.1", "size", "5"]) st
            = .ok (.errInvalidCommand, st') ∧ st' = st)
        ∧ (∃ st', CmdNode.route.func testLibrary testJunk
              (wordsOf ["route", "ipv4", "10.0.0.0/8", "delete"]) st
            = .ok (.errFailed, st') ∧ st' = st)
        ∧ ∃ st', CmdNode.listing.func testLibrary testJunk (wordsOf ["show", "ipv4-route"]) st
            = .ok (.successNoMessage, st') ∧ st' = st := by
  obtain ⟨st, mapserver, withdrawn, changed, deleted, listed, ran, routes, eids, locators,
      mapservers, withdraw, change, delete, listing⟩
      : ∃ st mapserver withdrawn changed deleted listed,
        run (commandStep testLibrary) .start wholeSite = .ok st
        ∧ st.lisp.rib.entries.map (fun e => (e.1.bitlen, e.2.state)) = [(9, .static)]
        ∧ st.eidTuple.nodes.map (fun eid => eid.prefixTuple.nodes.length) = [1]
        ∧ st.locTuple.nodes.length = 1 ∧ st.mapsrvTuple.nodes = [mapserver]
        ∧ CmdNode.eid.func testLibrary testJunk
            (wordsOf ["eid", "a", "prefix", "10.1.0.0/16", "delete"]) st
          = .ok (.errAddressDoesNotExists, withdrawn)
        ∧ CmdNode.locator.func testLibrary testJunk
            (wordsOf ["locator", "192.0.2.1", "size", "5"]) st
          = .ok (.errInvalidCommand, changed)
        ∧ CmdNode.route.func testLibrary testJunk
            (wordsOf ["route", "ipv4", "10.0.0.0/8", "delete"]) st
          = .ok (.errFailed, deleted)
        ∧ CmdNode.listing.func testLibrary testJunk (wordsOf ["show", "ipv4-route"]) st
          = .ok (.successNoMessage, listed) :=
    ⟨_, _, _, _, _, _, rfl, rfl, rfl, rfl, rfl, rfl, rfl, rfl, rfl⟩
  exact ⟨st, mapserver, ran, routes, eids, locators, mapservers,
    ⟨withdrawn, withdraw, CmdNode.func_kept withdraw (.inl ⟨nofun, nofun⟩)⟩,
    ⟨changed, change, CmdNode.func_kept change (.inl ⟨nofun, nofun⟩)⟩,
    ⟨deleted, delete, CmdNode.func_kept delete (.inl ⟨nofun, nofun⟩)⟩,
    ⟨listed, listing, CmdNode.func_kept listing (.inr rfl)⟩⟩

end Lixy.Control
