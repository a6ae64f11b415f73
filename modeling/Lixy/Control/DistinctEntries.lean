import Lixy.Control.LocatorHistories
import Lixy.Control.MapServers

/-! The lists of the configuration over all commands: what a command can do to them, and that no
entry is in a list twice.
-/

namespace Lixy.Control

open ByteStrings
open EventRuns (Reachable run)

-----------------------------------------------------------------------------------------
-- The comparisons
-----------------------------------------------------------------------------------------

/-- The family and the address of a locator. -/
def locatorKey (loc : Locator) : Nat × Option (List Byte) := (loc.locAddr.family, loc.locAddr.addr)

/-- The family, the length and the address of a prefix. -/
def prefixKey (pfx : Prefix) : Nat × Nat × Option (List Byte) := (pfx.family, pfx.bitlen, pfx.addr)

/-- `compare_locator` finds the locator of an address. -/
theorem compareSockaddr_of_same {res : AiAddr} {old : SockaddrStorage} {loc loc' : Locator}
    (copied : loc'.locAddr = res.copyTo old) (same : locatorKey loc = locatorKey loc')
    : compareSockaddr loc'.locAddr loc.locAddr = true := by
  have denotes : Denotes loc'.locAddr res.address := copied ▸ denotes_copyTo res old
  obtain ⟨family, addr⟩ := Prod.mk.inj same
  exact (compareSockaddr_iff denotes ⟨family.trans denotes.1, addr.trans denotes.2⟩).mpr rfl

/-- `compare_prefix` compares the keys of prefixes whose family is known. -/
theorem comparePrefix_iff {p q : Prefix} (known : p.addr.isSome)
    : comparePrefix p q = true ↔ prefixKey p = prefixKey q := by
  have different : afInet6 ≠ afInet := by decide
  obtain ⟨addr, addr_eq⟩ := Option.isSome_iff_exists.mp known
  rw [prefixKey, prefixKey, Prod.mk.injEq, Prod.mk.injEq, comparePrefix]
  by_cases family : p.family = q.family
  · by_cases bitlen : p.bitlen = q.bitlen
    · rw [if_neg (not_not_intro family), if_neg (not_not_intro bitlen), and_iff_right family,
        and_iff_right bitlen]
      rcases familyAddr_eq_some.mp addr_eq with ⟨inet, _⟩ | ⟨inet6, _⟩
      · rw [if_pos inet, beq_iff_eq, Prefix.addr, Prefix.addr, ← family, inet]
        simp only [familyAddr, if_true, Option.some.injEq]
        exact ⟨fun eq => congrArg _ eq, fun eq => List.Vector.eq _ _ eq⟩
      · rw [if_neg (by rw [inet6]; exact different), if_pos inet6, beq_iff_eq, Prefix.addr,
          Prefix.addr, ← family, inet6]
        simp only [familyAddr, if_neg different, if_true, Option.some.injEq]
        exact ⟨fun eq => congrArg _ eq, fun eq => List.Vector.eq _ _ eq⟩
    · simp [family, bitlen]
  · simp [family]

/-- A field compares equal with the string it was filled from, by induction on its length. -/
theorem strncmp_self (n : Nat) (src : List Byte) : strncmp n src (strncpy n src).toList = true := by
  change strncmp n src (src.take n ++ List.replicate (n - src.length) 0) = true
  induction n generalizing src with
  | zero => rfl
  | succ n ih =>
      cases src with
      | nil => simp [strncmp, List.replicate_succ]
      | cons c rest =>
          have next := ih rest
          simp only [strncmp, List.take_succ_cons, List.cons_append, List.headD_cons,
            List.tail_cons, List.length_cons, Nat.add_sub_add_right, ne_eq, not_true, if_false,
            next]
          simp

-----------------------------------------------------------------------------------------
-- What commands change
-----------------------------------------------------------------------------------------

/-- What a command does to the prefixes of an EID. -/
inductive PrefixChange (list : ListT Prefix) : ListT Prefix → Prop
  | kept : PrefixChange list list
  | added (pfx : Prefix) (valid : pfx.Valid) (absent : searchPrefix list pfx = none)
      : PrefixChange list (appendListnode list pfx)
  | dropped (place : Nat) : PrefixChange list (deleteListnode list place)

/-- What a command does to the daemon. -/
inductive Change (st : Lixyd) : Lixyd → Prop
  | routes (lisp : Lisp) : Change st { st with lisp }
  | serverAdded (mapsrv : SockaddrStorage)
      : Change st (st.withServers (appendListnode st.mapsrvTuple mapsrv))
  | serverDropped (place : Nat)
      : Change st (st.withServers (deleteListnode st.mapsrvTuple place))
  | locatorAdded (res : AiAddr) (loc : Locator) (copied : loc.locAddr = res.copyTo .zero)
      (absent : searchLocator loc.locAddr st = none)
      : Change st (setLispLocator loc st)
  | locatorDropped (place : Nat)
      : Change st { st with locTuple := deleteListnode st.locTuple place }
  | locatorSet (place : Nat) (loc : Locator) (there : st.locTuple.nodes[place]? = some loc)
      (param : LocatorParam) (value : BitVec 32)
      : Change st { st with locTuple := st.locTuple.write place (setParam loc param value) }
  | eidAdded (name : List Byte) (absent : searchEid name st = none)
      : Change st { st with eidTuple := appendListnode st.eidTuple (createEidInstance name) }
  | eidDropped (place : Nat) : Change st { st with eidTuple := deleteListnode st.eidTuple place }
  | eidWritten (place : Nat) (eid eid' : Eid) (there : st.eidTuple.nodes[place]? = some eid)
      (name : eid'.name = eid.name) (prefixes : PrefixChange eid.prefixTuple eid'.prefixTuple)
      : Change st (st.writeEid place eid')

/-- Where the computation returns, the daemon is changed as a command changes it. -/
def Changes (st : Lixyd) (x : Except CommandFault (ReturnType × Lixyd)) : Prop :=
  ∀ res st', x = .ok (res, st') → Change st st'

section

variable {st : Lixyd}

/-- A command that leaves the daemon as it is. -/
theorem Change.kept : Change st st := .routes st.lisp

theorem changes_answer {res : ReturnType} {st' : Lixyd} (change : Change st st')
    : Changes st (answer res st') := by
  rintro _ _ ⟨⟩
  exact change

/-- A sequence changes the daemon as its continuation does. -/
theorem changes_bind {α : Type} {x : Except CommandFault α}
    {f : α → Except CommandFault (ReturnType × Lixyd)}
    (next : ∀ a, x = .ok a → Changes st (f a))
    : Changes st (x >>= f) := by
  intro res st' done
  obtain ⟨a, returned, done⟩ := bind_eq_ok.mp done
  exact next a returned res st' done

theorem changes_ite {c : Prop} [Decidable c] {x y : Except CommandFault (ReturnType × Lixyd)}
    (holds : Changes st x) (fails : Changes st y)
    : Changes st (if c then x else y) := by
  split
  · exact holds
  · exact fails

end

section

variable (lib : Library) (junk : Junk) (args : Args) (st : Lixyd)

theorem configMapServer_changes : Changes st (configMapServer lib junk args st) := by
  unfold configMapServer
  refine changes_ite ?_ (changes_bind fun _ _ => changes_ite ?_ (changes_answer .kept))
  · rw [cmdSetMapServer_eq]
    cases lib.getaddrinfo (args 1) lispControlPort with
    | none => exact changes_answer .kept
    | some res => exact changes_answer (.serverAdded _)
  · rw [cmdDeleteMapServer_eq]
    cases lib.getaddrinfo (args 1) lispControlPort with
    | none => exact changes_answer .kept
    | some res =>
        rw [Option.bind_some, unsetLispMapserver]
        cases searchListnode st.mapsrvTuple (· == res.copyTo junk.sockaddr) with
        | none => exact changes_answer .kept
        | some hit => exact changes_answer (.serverDropped hit.1)

theorem cmdCreateLocator_changes : Changes st (cmdCreateLocator lib args st) := by
  unfold cmdCreateLocator
  split
  · exact changes_answer .kept
  · next res _ =>
      dsimp only
      split
      · exact changes_answer .kept
      · next absent => exact changes_answer (.locatorAdded res _ rfl absent)

theorem cmdDeleteLocator_changes : Changes st (cmdDeleteLocator lib junk args st) := by
  unfold cmdDeleteLocator
  cases lib.getaddrinfo (args 1) lispControlPort with
  | none => exact changes_answer .kept
  | some res =>
      dsimp only
      rw [unsetLispLocator]
      cases searchListnode st.locTuple fun loc =>
          compareSockaddr loc.locAddr (res.copyTo junk.sockaddr) with
      | none => exact changes_answer .kept
      | some hit => exact changes_answer (.locatorDropped hit.1)

theorem cmdSetLocatorParamater_changes
    : Changes st (cmdSetLocatorParamater lib junk args st) := by
  unfold cmdSetLocatorParamater
  refine changes_ite (changes_answer .kept) ?_
  split
  · exact changes_answer .kept
  · split
    · exact changes_answer .kept
    · next place loc found =>
        refine changes_bind fun param _ => ?_
        split
        · exact changes_answer .kept
        · refine changes_bind fun _ _ => changes_answer ?_
          exact .locatorSet place loc (searchListnode_getElem? found) _ _

theorem configLocator_changes : Changes st (configLocator lib junk args st) := by
  unfold configLocator
  refine changes_ite (changes_answer .kept) (changes_bind fun _ _ => ?_)
  refine changes_ite (cmdCreateLocator_changes _ _ _) (changes_bind fun _ _ => ?_)
  exact changes_ite (cmdDeleteLocator_changes _ _ _ _) (cmdSetLocatorParamater_changes _ _ _ _)

theorem cmdCreateEid_changes : Changes st (cmdCreateEid args st) := by
  unfold cmdCreateEid
  refine changes_bind fun eidName _ => ?_
  split
  · exact changes_answer .kept
  · next absent => exact changes_answer (.eidAdded eidName absent)

theorem cmdDeleteEid_changes : Changes st (cmdDeleteEid args st) := by
  unfold cmdDeleteEid
  refine changes_bind fun eidName _ => ?_
  split
  · exact changes_answer .kept
  · next place _ _ => exact changes_answer (.eidDropped place)

theorem cmdSetEidAuthenticationKey_changes
    : Changes st (cmdSetEidAuthenticationKey args st) := by
  unfold cmdSetEidAuthenticationKey
  refine changes_bind fun eidName _ => ?_
  split
  · exact changes_answer .kept
  · next place eid found =>
      refine changes_bind fun key _ => changes_ite (changes_answer .kept) ?_
      refine changes_bind fun authkey _ => changes_answer ?_
      exact .eidWritten place eid _ (searchListnode_getElem? found) rfl .kept

/-- The prefix that an argument stands for is valid. -/
theorem eidPrefix_valid {cPrefix : List Byte} {pfx : Prefix}
    (parsed : eidPrefix lib junk cPrefix = .ok (some pfx))
    : pfx.Valid := by
  unfold eidPrefix at parsed
  obtain ⟨addrbuf, _, parsed⟩ := bind_eq_ok.mp parsed
  obtain ⟨string, _, parsed⟩ := bind_eq_ok.mp parsed
  split at parsed
  · cases parsed
  · split at parsed
    · cases parsed
    · exact ascii2prefix_valid (call_eq_ok.mp parsed)

theorem cmdSetEidPrefix_changes : Changes st (cmdSetEidPrefix lib junk args st) := by
  unfold cmdSetEidPrefix
  split
  · split
    · exact changes_answer .kept
    · next place eid found =>
        refine changes_bind fun parsed read => ?_
        split
        · exact changes_answer .kept
        · next pfx =>
            split
            · exact changes_answer .kept
            · next absent =>
                refine changes_answer ?_
                exact .eidWritten place eid _ (searchListnode_getElem? found) rfl
                  (.added pfx (eidPrefix_valid _ _ read) absent)
  · exact changes_answer .kept

theorem cmdUnsetEidPrefix_changes : Changes st (cmdUnsetEidPrefix lib junk args st) := by
  unfold cmdUnsetEidPrefix
  split
  · split
    · exact changes_answer .kept
    · next place eid found =>
        refine changes_bind fun parsed read => ?_
        split
        · exact changes_answer .kept
        · split
          · exact changes_answer .kept
          · next pplace _ _ =>
              refine changes_answer ?_
              exact .eidWritten place eid _ (searchListnode_getElem? found) rfl (.dropped pplace)
  · exact changes_answer .kept

theorem configEid_changes : Changes st (configEid lib junk args st) := by
  unfold configEid
  refine changes_ite (changes_answer .kept) (changes_bind fun _ _ => ?_)
  refine changes_ite (cmdCreateEid_changes _ _) (changes_bind fun _ _ => ?_)
  refine changes_ite (cmdDeleteEid_changes _ _) (changes_bind fun _ _ => ?_)
  refine changes_ite (cmdSetEidAuthenticationKey_changes _ _) (changes_bind fun _ _ => ?_)
  refine changes_ite ?_ (changes_answer .kept)
  refine changes_ite (cmdSetEidPrefix_changes _ _ _ _) (changes_bind fun _ _ => ?_)
  exact changes_ite (cmdUnsetEidPrefix_changes _ _ _ _) (changes_answer .kept)

theorem configRoute_changes : Changes st (configRoute lib args st) := by
  unfold configRoute
  refine changes_ite (changes_answer .kept) (changes_bind fun _ _ => changes_ite ?_ ?_)
  · unfold cmdUninstallRoute
    refine changes_bind fun af _ => ?_
    split
    · exact changes_answer .kept
    · refine changes_bind fun _ _ => changes_bind fun pfx _ => ?_
      split
      · exact changes_answer .kept
      · refine changes_bind fun removal _ => ?_
        split <;> exact changes_answer (.routes _)
  · unfold cmdInstallRoute
    refine changes_bind fun af _ => ?_
    split
    · exact changes_answer .kept
    · split
      · exact changes_answer .kept
      · refine changes_bind fun _ _ => changes_bind fun pfx _ => ?_
        split
        · exact changes_answer .kept
        · exact changes_bind fun lisp _ => changes_answer (.routes lisp)

/-- Every command changes the daemon in one of these ways. -/
theorem execCommand_changes : Changes st (execCommand lib junk args st) := by
  unfold execCommand
  cases searchCmdNode (args 0) with
  | none => exact changes_answer .kept
  | some node =>
      cases node with
      | mapserver => exact configMapServer_changes lib junk args st
      | locator => exact configLocator_changes lib junk args st
      | eid => exact configEid_changes lib junk args st
      | route => exact configRoute_changes lib args st
      | listing =>
          intro res st' done
          rw [@CmdNode.func_kept lib junk args st st' .listing res done (.inr rfl)]
          exact .kept

end

-----------------------------------------------------------------------------------------
-- No entry twice
-----------------------------------------------------------------------------------------

/-- No two locators have one family and address, no two EIDs one name, and no two prefixes of an
EID one family, length and address; these and the map servers are counted.
-/
structure Lixyd.Distinct (st : Lixyd) : Prop where
  locators : st.locTuple.Keyed locatorKey
  eids : st.eidTuple.Keyed Eid.name
  prefixes : ∀ eid ∈ st.eidTuple.nodes, eid.prefixTuple.Keyed prefixKey
  mapservers : st.mapsrvTuple.Counted

theorem distinct_start : Lixyd.start.Distinct :=
  ⟨keyed_createList, keyed_createList, nofun, counted_createList⟩

theorem PrefixChange.keyed {list list' : ListT Prefix} (h : PrefixChange list list')
    (inv : list.Keyed prefixKey)
    : list'.Keyed prefixKey := by
  cases h with
  | kept => exact inv
  | added pfx valid absent =>
      refine inv.append fun other mem same => ?_
      have missed := searchListnode_eq_none.mp absent other mem
      rw [(comparePrefix_iff valid.addr_isSome).mpr same.symm] at missed
      cases missed
  | dropped place => exact inv.delete place

/-- What one command keeps. -/
theorem Change.distinct {st st' : Lixyd} (h : Change st st') (inv : st.Distinct)
    : st'.Distinct := by
  obtain ⟨locators, eids, prefixes, mapservers⟩ := inv
  cases h with
  | routes lisp => exact ⟨locators, eids, prefixes, mapservers⟩
  | serverAdded mapsrv => exact ⟨locators, eids, prefixes, mapservers.append mapsrv⟩
  | serverDropped place => exact ⟨locators, eids, prefixes, mapservers.delete place⟩
  | locatorAdded res loc copied absent =>
      refine ⟨locators.append fun other mem same => ?_, eids, prefixes, mapservers⟩
      have missed := searchListnode_eq_none.mp absent other mem
      rw [compareSockaddr_of_same copied same] at missed
      cases missed
  | locatorDropped place => exact ⟨locators.delete place, eids, prefixes, mapservers⟩
  | locatorSet place loc there param value =>
      refine ⟨locators.write there ?_, eids, prefixes, mapservers⟩
      rw [locatorKey, locatorKey, locAddr_setParam]
  | eidAdded name absent =>
      refine ⟨locators, eids.append fun other mem same => ?_, ?_, mapservers⟩
      · have missed := searchListnode_eq_none.mp absent other mem
        rw [same] at missed
        exact Bool.noConfusion (missed.symm.trans (strncmp_self lispEidNameLen name))
      · intro eid mem
        rcases List.mem_append.mp mem with mem | mem
        · exact prefixes eid mem
        · obtain rfl := List.mem_singleton.mp mem
          exact keyed_createList
  | eidDropped place =>
      refine ⟨locators, eids.delete place, fun eid mem => prefixes eid ?_, mapservers⟩
      exact (deleteListnode_sublist st.eidTuple place).mem mem
  | eidWritten place eid eid' there name change =>
      refine ⟨locators, eids.write there name, fun other mem => ?_, mapservers⟩
      rcases List.mem_or_eq_of_mem_set mem with mem | rfl
      · exact prefixes other mem
      · exact change.keyed (prefixes eid (List.mem_of_getElem? there))

/-- Whatever commands have run, no entry is in a list of the configuration twice, and the
counters are those of the lists.
-/
theorem distinct_of_reachable {lib : Library} {st : Lixyd}
    (reachable : Reachable (commandStep lib) .start st)
    : st.Distinct := by
  refine reachable.invariant (fun st arrival next inv done => ?_) distinct_start
  obtain ⟨⟨res, st'⟩, ran, done⟩ := bind_eq_ok.mp done
  obtain rfl := pure_eq_ok.mp done
  exact (execCommand_changes lib arrival.1 (arrival.2[·]?) st res st' ran).distinct inv

/-- Commands for testing: two locators, an EID and two prefixes of it that differ in length. -/
def siteCommands : List Arrival :=
  [[ascii "locator", ascii "192.0.2.1", ascii "create"],
    [ascii "locator", ascii "192.0.2.2", ascii "create"],
    [ascii "eid", ascii "a", ascii "create"],
    [ascii "eid", ascii "a", ascii "prefix", ascii "10.0.0.0/8"],
    [ascii "eid", ascii "a", ascii "prefix", ascii "10.0.0.0/16"]].map (testJunk, ·)

/-- Witness: the lists after these commands. -/
theorem siteCommands_distinct
    : ∃ st, run (commandStep testLibrary) .start siteCommands = .ok st ∧ st.Distinct
        ∧ st.locTuple.nodes.length = 2
        ∧ st.eidTuple.nodes.map (·.prefixTuple.nodes.length) = [2] := by
  obtain ⟨st, done, locators, prefixes⟩ : ∃ st,
      run (commandStep testLibrary) .start siteCommands = .ok st
        ∧ st.locTuple.nodes.length = 2
        ∧ st.eidTuple.nodes.map (·.prefixTuple.nodes.length) = [2] :=
    ⟨_, rfl, rfl, rfl⟩
  exact ⟨st, done, distinct_of_reachable ⟨siteCommands, done⟩, locators, prefixes⟩

-----------------------------------------------------------------------------------------
-- The width of a counter
-----------------------------------------------------------------------------------------

/-- `mapserver 192.0.2.1` -/
def testMapserver : Arrival := (testJunk, [ascii "mapserver", ascii "192.0.2.1"])

/-- It adds the same map server each time, by induction on how often it is given. -/
theorem run_testMapserver (n : Nat) (st : Lixyd)
    : ∃ servers : List SockaddrStorage, servers.length = n
        ∧ run (commandStep testLibrary) st (List.replicate n testMapserver)
          = .ok (st.withServers (servers.foldl appendListnode st.mapsrvTuple)) := by
  induction n generalizing st with
  | zero => exact ⟨[], rfl, rfl⟩
  | succ n ih =>
      obtain ⟨mapsrv, added⟩ : ∃ mapsrv, commandStep testLibrary st testMapserver
          = .ok (st.withServers (appendListnode st.mapsrvTuple mapsrv)) :=
        ⟨_, rfl⟩
      obtain ⟨servers, length, ran⟩ := ih (st.withServers (appendListnode st.mapsrvTuple mapsrv))
      refine ⟨mapsrv :: servers, by rw [List.length_cons, length], ?_⟩
      rw [List.replicate_succ, EventRuns.run_cons_eq_ok]
      exact ⟨_, added, ran⟩

/-- After 2^32 such commands the counter is 0. -/
theorem mapserver_counter_wraps
    : ¬ ∀ (lib : Library) (st : Lixyd), Reachable (commandStep lib) .start st
        → st.Distinct ∧ st.locTuple.CountsNodes ∧ st.eidTuple.CountsNodes
          ∧ (∀ eid ∈ st.eidTuple.nodes, eid.prefixTuple.CountsNodes)
          ∧ st.mapsrvTuple.CountsNodes := by
  intro all
  obtain ⟨servers, length, ran⟩ := run_testMapserver (2 ^ 32) .start
  obtain ⟨inv, _, _, _, counts⟩ := all testLibrary _ ⟨_, ran⟩
  have short := inv.mapservers.countsNodes_iff.mp counts
  rw [foldl_appendListnode] at short
  change ([] ++ servers).length < 2 ^ 32 at short
  rw [List.nil_append, length] at short
  exact absurd short (Nat.lt_irrefl _)

end Lixy.Control
