import Mathlib.Data.Multiset.ZeroCons
import Lixy.Foundation.EventRuns
import Lixy.Control.CommandEffects

/-! A map server that is added and deleted again, with other commands in between. Both commands
copy the address to an uninitialised variable, and all of that is stored and compared.
-/

namespace Lixy.Control

open ByteStrings
open EventRuns (run)

-----------------------------------------------------------------------------------------
-- The copied address
-----------------------------------------------------------------------------------------

/-- What the copy leaves of the variable: the bytes behind `ai_addrlen`. -/
def AiAddr.leftOver (old : SockaddrStorage) : AiAddr → List Byte
  | inet .. => old.sin6Addr.toList.drop 8 ++ old.rest.toList
  | inet6 .. => old.rest.toList.drop 4

/-- Vectors with equal starts and lengths of these are equal in both parts. -/
theorem toList_append_inj {n m k : Nat} {v w : Bytes n} {back back' : Bytes m}
    (same : v.toList ++ back.toList.drop k = w.toList ++ back'.toList.drop k)
    : v = w ∧ back.toList.drop k = back'.toList.drop k :=
  (List.append_inj same (by simp)).imp_left (List.Vector.eq _ _)

/-- Copies are equal where the addresses are, and the variables agree behind them. -/
theorem copyTo_eq_iff {res other : AiAddr} {old old' : SockaddrStorage}
    : res.copyTo old = other.copyTo old'
      ↔ res = other ∧ res.leftOver old = other.leftOver old' := by
  constructor
  · intro same
    cases res with
    | inet port sinAddr sinZero =>
        cases other with
        | inet port' sinAddr' sinZero' =>
            obtain ⟨_, rfl, rfl, zero, rest⟩ := SockaddrStorage.mk.inj same
            obtain ⟨rfl, padding⟩ := toList_append_inj (congrArg List.Vector.toList zero)
            exact ⟨rfl, by rw [AiAddr.leftOver, AiAddr.leftOver, padding, rest]⟩
        | inet6 _ _ _ _ => cases congrArg SockaddrStorage.family same
    | inet6 port flowinfo sin6Addr scopeId =>
        cases other with
        | inet _ _ _ => cases congrArg SockaddrStorage.family same
        | inet6 port' flowinfo' sin6Addr' scopeId' =>
            obtain ⟨_, rfl, rfl, rfl, rest⟩ := SockaddrStorage.mk.inj same
            obtain ⟨rfl, padding⟩ := toList_append_inj (congrArg List.Vector.toList rest)
            exact ⟨rfl, padding⟩
  · rintro ⟨rfl, leftOver⟩
    cases res with
    | inet port sinAddr sinZero =>
        obtain ⟨padding, rest⟩ := List.append_inj leftOver (by simp)
        simp only [AiAddr.copyTo, padding, List.Vector.eq _ _ rest]
    | inet6 port flowinfo sin6Addr scopeId =>
        change old.rest.toList.drop 4 = old'.rest.toList.drop 4 at leftOver
        simp only [AiAddr.copyTo, leftOver]

-----------------------------------------------------------------------------------------
-- Commands on other things
-----------------------------------------------------------------------------------------

/-- The daemon with other map servers. -/
def Lixyd.withServers (st : Lixyd) (servers : ListT SockaddrStorage) : Lixyd :=
  { st with mapsrvTuple := servers }

/-- What a command returns, beside other map servers. -/
def beside (servers : ListT SockaddrStorage) (x : Except CommandFault (ReturnType × Lixyd))
    : Except CommandFault (ReturnType × Lixyd) :=
  x.map fun r => (r.1, r.2.withServers servers)

/-- The command neither reads nor changes the map servers. -/
def Blind (cmd : Command) : Prop :=
  ∀ st servers, cmd (st.withServers servers) = beside servers (cmd st)

section

variable {servers : ListT SockaddrStorage}

/-- A sequence is beside other map servers when its continuation is. -/
theorem beside_bind {α : Type} {x : Except CommandFault α}
    {f g : α → Except CommandFault (ReturnType × Lixyd)} (next : ∀ a, f a = beside servers (g a))
    : (x >>= f) = beside servers (x >>= g) := by
  cases x with
  | error _ => rfl
  | ok a => exact next a

theorem beside_ite {c : Prop} [Decidable c]
    {x y x' y' : Except CommandFault (ReturnType × Lixyd)} (holds : x = beside servers x')
    (fails : y = beside servers y')
    : (if c then x else y) = beside servers (if c then x' else y') := by
  split
  · exact holds
  · exact fails

end

section

variable (lib : Library) (junk : Junk) (args : Args)

theorem cmdCreateLocator_blind : Blind (cmdCreateLocator lib args) := by
  intro st servers
  unfold cmdCreateLocator
  cases lib.getaddrinfo (args 1) lispControlPort with
  | none => rfl
  | some res =>
      dsimp only [searchLocator, Lixyd.withServers]
      split <;> rfl

theorem cmdDeleteLocator_blind : Blind (cmdDeleteLocator lib junk args) := by
  intro st servers
  unfold cmdDeleteLocator
  cases lib.getaddrinfo (args 1) lispControlPort with
  | none => rfl
  | some res =>
      dsimp only [unsetLispLocator, Lixyd.withServers]
      cases searchListnode st.locTuple fun loc =>
          compareSockaddr loc.locAddr (res.copyTo junk.sockaddr) with
      | none => rfl
      | some _ => rfl

theorem cmdSetLocatorParamater_blind : Blind (cmdSetLocatorParamater lib junk args) := by
  intro st servers
  unfold cmdSetLocatorParamater
  refine beside_ite rfl ?_
  cases lib.getaddrinfo (args 1) lispControlPort with
  | none => rfl
  | some res =>
      dsimp only [searchLocator, Lixyd.withServers]
      split
      · rfl
      · refine beside_bind fun param => ?_
        cases param with
        | none => rfl
        | some param => exact beside_bind fun _ => rfl

theorem configLocator_blind : Blind (configLocator lib junk args) := by
  intro st servers
  unfold configLocator
  refine beside_ite rfl (beside_bind fun _ => ?_)
  refine beside_ite (cmdCreateLocator_blind lib args st servers) (beside_bind fun _ => ?_)
  exact beside_ite (cmdDeleteLocator_blind lib junk args st servers)
    (cmdSetLocatorParamater_blind lib junk args st servers)

theorem cmdCreateEid_blind : Blind (cmdCreateEid args) := by
  intro st servers
  unfold cmdCreateEid
  refine beside_bind fun eidName => ?_
  dsimp only [searchEid, Lixyd.withServers]
  split <;> rfl

theorem cmdDeleteEid_blind : Blind (cmdDeleteEid args) := by
  intro st servers
  unfold cmdDeleteEid
  refine beside_bind fun eidName => ?_
  dsimp only [searchEid, Lixyd.withServers]
  split <;> rfl

theorem cmdSetEidAuthenticationKey_blind : Blind (cmdSetEidAuthenticationKey args) := by
  intro st servers
  unfold cmdSetEidAuthenticationKey
  refine beside_bind fun eidName => ?_
  dsimp only [searchEid, Lixyd.withServers]
  split
  · rfl
  · exact beside_bind fun _ => beside_ite rfl (beside_bind fun _ => rfl)

theorem cmdSetEidPrefix_blind : Blind (cmdSetEidPrefix lib junk args) := by
  intro st servers
  unfold cmdSetEidPrefix
  split
  · dsimp only [searchEid, Lixyd.withServers]
    split
    · rfl
    · refine beside_bind fun pfx => ?_
      cases pfx with
      | none => rfl
      | some pfx =>
          dsimp only
          split <;> rfl
  · rfl

theorem cmdUnsetEidPrefix_blind : Blind (cmdUnsetEidPrefix lib junk args) := by
  intro st servers
  unfold cmdUnsetEidPrefix
  split
  · dsimp only [searchEid, Lixyd.withServers]
    split
    · rfl
    · refine beside_bind fun pfx => ?_
      cases pfx with
      | none => rfl
      | some pfx =>
          dsimp only
          split <;> rfl
  · rfl

theorem configEid_blind : Blind (configEid lib junk args) := by
  intro st servers
  unfold configEid
  refine beside_ite rfl (beside_bind fun _ => ?_)
  refine beside_ite (cmdCreateEid_blind args st servers) (beside_bind fun _ => ?_)
  refine beside_ite (cmdDeleteEid_blind args st servers) (beside_bind fun _ => ?_)
  refine beside_ite (cmdSetEidAuthenticationKey_blind args st servers) (beside_bind fun _ => ?_)
  refine beside_ite ?_ rfl
  refine beside_ite (cmdSetEidPrefix_blind lib junk args st servers) (beside_bind fun _ => ?_)
  exact beside_ite (cmdUnsetEidPrefix_blind lib junk args st servers) rfl

theorem cmdInstallRoute_blind : Blind (cmdInstallRoute lib args) := by
  intro st servers
  unfold cmdInstallRoute
  refine beside_bind fun af => ?_
  cases af with
  | none => rfl
  | some af =>
      dsimp only
      split
      · rfl
      · refine beside_bind fun _ => beside_bind fun pfx => ?_
        cases pfx with
        | none => rfl
        | some pfx => exact beside_bind fun _ => rfl

theorem cmdUninstallRoute_blind : Blind (cmdUninstallRoute lib args) := by
  intro st servers
  unfold cmdUninstallRoute
  refine beside_bind fun af => ?_
  cases af with
  | none => rfl
  | some af =>
      refine beside_bind fun _ => beside_bind fun pfx => ?_
      cases pfx with
      | none => rfl
      | some pfx =>
          refine beside_bind fun removal => ?_
          obtain ⟨lisp, removed⟩ := removal
          cases removed <;> rfl

theorem configRoute_blind : Blind (configRoute lib args) := by
  intro st servers
  unfold configRoute
  refine beside_ite rfl (beside_bind fun _ => ?_)
  exact beside_ite (cmdUninstallRoute_blind lib args st servers)
    (cmdInstallRoute_blind lib args st servers)

/-- The command of a listing, without its lines. -/
def unlisted (listing : Listing) : Command := fun st => do
  let (res, _, st) ← listing st
  return (res, st)

theorem cmdShowRoute_blind (af : Nat) : Blind (unlisted (cmdShowRoute junk args af)) := by
  intro st servers
  unfold unlisted cmdShowRoute
  rw [bind_assoc, bind_assoc]
  refine beside_bind fun state => ?_
  rw [bind_assoc, bind_assoc]
  exact beside_bind fun _ => rfl

theorem cmdShowEid_blind : Blind (unlisted (cmdShowEid args)) := by
  intro st servers
  unfold unlisted cmdShowEid
  dsimp only [searchEid, Lixyd.withServers]
  split
  · split <;> rfl
  · rfl

/-- A sequence of a listing is blind when its continuation is. -/
theorem unlisted_bind {α : Type} {x : Except CommandFault α} {f : α → Listing}
    (next : ∀ a, Blind (unlisted (f a)))
    : Blind (unlisted fun st => x >>= fun a => f a st) := by
  intro st servers
  unfold unlisted
  rw [bind_assoc, bind_assoc]
  exact beside_bind fun a => next a st servers

theorem unlisted_ite {c : Prop} [Decidable c] {x y : Listing} (holds : Blind (unlisted x))
    (fails : Blind (unlisted y))
    : Blind (unlisted fun st => if c then x st else y st) := by
  split
  · exact holds
  · exact fails

theorem configShow_blind : Blind (unlisted (configShow junk args)) := by
  refine unlisted_ite (fun _ _ => rfl) (unlisted_bind fun _ => ?_)
  refine unlisted_ite (cmdShowRoute_blind junk args afInet) (unlisted_bind fun _ => ?_)
  refine unlisted_ite (cmdShowRoute_blind junk args afInet6) (unlisted_bind fun _ => ?_)
  refine unlisted_ite (cmdShowEid_blind args) (unlisted_bind fun _ => ?_)
  refine unlisted_ite (fun _ _ => rfl) (unlisted_bind fun _ => ?_)
  exact unlisted_ite (fun _ _ => rfl) (fun _ _ => rfl)

/-- No command but `mapserver` has to do with the map servers. -/
theorem CmdNode.func_blind {node : CmdNode} (other : node ≠ .mapserver)
    : Blind (node.func lib junk args) := by
  cases node with
  | mapserver => exact absurd rfl other
  | locator => exact configLocator_blind lib junk args
  | eid => exact configEid_blind lib junk args
  | listing => exact configShow_blind junk args
  | route => exact configRoute_blind lib args

end

-----------------------------------------------------------------------------------------
-- Runs with one map server more
-----------------------------------------------------------------------------------------

/-- The command is `mapserver` with a name of the address. -/
def Names (lib : Library) (res : AiAddr) (words : List (List Byte)) : Prop :=
  searchCmdNode words[0]? = some .mapserver
    ∧ lib.getaddrinfo words[1]? lispControlPort = some res

/-- The first daemon has one map server more, and else the same. -/
structure HasMore (mapsrv : SockaddrStorage) (st st' : Lixyd) : Prop where
  servers : st.mapsrvTuple.nodes.Perm (mapsrv :: st'.mapsrvTuple.nodes)
  others : st' = st.withServers st'.mapsrvTuple

section

variable {st st' next : Lixyd} {mapsrv : SockaddrStorage}

/-- What is blind keeps the map servers. -/
theorem Blind.keeps {cmd : Command} {res : ReturnType} (blind : Blind cmd)
    (done : cmd st = .ok (res, next))
    : next.mapsrvTuple = st.mapsrvTuple := by
  have same := blind st st.mapsrvTuple
  change cmd st = _ at same
  rw [done] at same
  have kept : next = next.withServers st.mapsrvTuple := (Prod.mk.inj (Except.ok.inj same)).2
  rw [kept]
  rfl

/-- A resolved address is always stored. -/
theorem setLispMapserver_copyTo (res : AiAddr) (old : SockaddrStorage) (st : Lixyd)
    : setLispMapserver (res.copyTo old) st
      = some (st.withServers (appendListnode st.mapsrvTuple (res.copyTo old))) := by
  cases res <;> rfl

/-- A map server that is stored is deleted once, and no other is. -/
theorem unsetLispMapserver_cases (mapsrv : SockaddrStorage) (st : Lixyd)
    : (unsetLispMapserver mapsrv st = none ∧ mapsrv ∉ st.mapsrvTuple.nodes)
      ∨ ∃ servers, unsetLispMapserver mapsrv st = some (st.withServers servers)
          ∧ mapsrv ∈ st.mapsrvTuple.nodes
          ∧ servers.nodes = st.mapsrvTuple.nodes.erase mapsrv := by
  unfold unsetLispMapserver
  cases found : searchListnode st.mapsrvTuple (· == mapsrv) with
  | none =>
      refine .inl ⟨rfl, fun mem => ?_⟩
      have other := searchListnode_eq_none.mp found mapsrv mem
      simp at other
  | some hit =>
      obtain ⟨place, data⟩ := hit
      obtain ⟨front, back, split, there, equal, before⟩ := searchListnode_split found
      obtain rfl := beq_iff_eq.mp equal
      have absent : data ∉ front := by
        intro mem
        have other := before data mem
        simp at other
      refine .inr ⟨_, rfl, by simp [split], ?_⟩
      rw [(deleteListnode_split split there).1, split, List.erase_append_right _ absent,
        List.erase_cons_head]

/-- A map server is deleted from both daemons, or found in neither. -/
theorem HasMore.unset (more : HasMore mapsrv st st') {other : SockaddrStorage}
    (ne : other ≠ mapsrv)
    : (unsetLispMapserver other st = none ∧ unsetLispMapserver other st' = none)
      ∨ ∃ next next', unsetLispMapserver other st = some next
          ∧ unsetLispMapserver other st' = some next' ∧ HasMore mapsrv next next' := by
  have both : other ∈ st.mapsrvTuple.nodes ↔ other ∈ st'.mapsrvTuple.nodes := by
    rw [more.servers.mem_iff, List.mem_cons, or_iff_right ne]
  rcases unsetLispMapserver_cases other st with ⟨missed, absent⟩ | ⟨servers, hit, mem, nodes⟩
  · rcases unsetLispMapserver_cases other st' with ⟨missed', _⟩ | ⟨_, _, mem', _⟩
    · exact .inl ⟨missed, missed'⟩
    · exact absurd (both.mpr mem') absent
  · rcases unsetLispMapserver_cases other st' with ⟨_, absent'⟩ | ⟨servers', hit', _, nodes'⟩
    · exact absurd (both.mp mem) absent'
    · refine .inr ⟨_, _, hit, hit', ?_, ?_⟩
      · have erased := more.servers.erase other
        rw [List.erase_cons_tail (by simpa using ne.symm)] at erased
        change servers.nodes.Perm (mapsrv :: servers'.nodes)
        rw [nodes, nodes']
        exact erased
      · rw [more.others]
        rfl

/-- `mapserver A`, where A resolves, appends the address. -/
theorem cmdSetMapServer_eq (lib : Library) (junk : Junk) (args : Args) (st : Lixyd)
    : cmdSetMapServer lib junk args st
      = (lib.getaddrinfo (args 1) lispControlPort).elim (answer .errInvalidAddress st)
          fun res => answer .success
            (st.withServers (appendListnode st.mapsrvTuple (res.copyTo junk.sockaddr))) := by
  unfold cmdSetMapServer
  cases lib.getaddrinfo (args 1) lispControlPort with
  | none => rfl
  | some res =>
      dsimp only
      rw [setLispMapserver_copyTo]
      rfl

/-- `mapserver A delete` succeeds where A resolves to what is stored. -/
theorem cmdDeleteMapServer_eq (lib : Library) (junk : Junk) (args : Args) (st : Lixyd)
    : cmdDeleteMapServer lib junk args st
      = ((lib.getaddrinfo (args 1) lispControlPort).bind
            fun res => unsetLispMapserver (res.copyTo junk.sockaddr) st).elim
          (answer .errInvalidAddress st) (answer .success) := by
  unfold cmdDeleteMapServer
  cases lib.getaddrinfo (args 1) lispControlPort with
  | none => rfl
  | some res =>
      dsimp only [Option.bind_some]
      cases unsetLispMapserver (res.copyTo junk.sockaddr) st with
      | none => rfl
      | some _ => rfl

/-- A `mapserver` command on another address does the same to both daemons. -/
theorem HasMore.configMapServer {lib : Library} {junk : Junk} {args : Args} {res : ReturnType}
    (more : HasMore mapsrv st st')
    (unnamed : ∀ other, lib.getaddrinfo (args 1) lispControlPort = some other
      → ∀ old, other.copyTo old ≠ mapsrv)
    (done : configMapServer lib junk args st = .ok (res, next))
    : ∃ next', Control.configMapServer lib junk args st' = .ok (res, next')
        ∧ HasMore mapsrv next next' := by
  have refused {res' : ReturnType} (done : answer res' st = .ok (res, next))
      : ∃ next', answer res' st' = .ok (res, next') ∧ HasMore mapsrv next next' := by
    obtain ⟨rfl, rfl⟩ := Prod.mk.inj (Except.ok.inj done)
    exact ⟨st', rfl, more⟩
  unfold Control.configMapServer at done ⊢
  split at done
  · next short =>
      rw [if_pos short]
      rw [cmdSetMapServer_eq] at done ⊢
      cases resolved : lib.getaddrinfo (args 1) lispControlPort with
      | none =>
          rw [resolved] at done
          exact refused done
      | some other =>
          rw [resolved] at done
          obtain ⟨rfl, rfl⟩ := Prod.mk.inj (Except.ok.inj done)
          refine ⟨_, rfl, ?_, by rw [more.others]; rfl⟩
          exact more.servers.append_right [other.copyTo junk.sockaddr]
  · next long =>
      rw [if_neg long]
      obtain ⟨isDelete, compared, done⟩ := bind_eq_ok.mp done
      rw [compared]
      change ∃ next', (if isDelete = true then _ else _) = _ ∧ _
      split at done
      · next delete =>
          rw [if_pos delete]
          rw [cmdDeleteMapServer_eq] at done ⊢
          cases resolved : lib.getaddrinfo (args 1) lispControlPort with
          | none =>
              rw [resolved] at done
              exact refused done
          | some other =>
              rw [resolved, Option.bind_some] at done
              rw [Option.bind_some]
              rcases more.unset (unnamed other resolved junk.sockaddr)
                with ⟨missed, missed'⟩ | ⟨after, after', hit, hit', more'⟩
              · rw [missed] at done
                rw [missed']
                exact refused done
              · rw [hit] at done
                rw [hit']
                obtain ⟨rfl, rfl⟩ := Prod.mk.inj (Except.ok.inj done)
                exact ⟨after', rfl, more'⟩
      · next invalid =>
          rw [if_neg invalid]
          exact refused done

/-- A command that does not name the map server does the same to both daemons. -/
theorem HasMore.step {lib : Library} {res : AiAddr} {old : SockaddrStorage} {arrival : Arrival}
    (more : HasMore (res.copyTo old) st st') (unnamed : ¬ Names lib res arrival.2)
    (done : commandStep lib st arrival = .ok next)
    : ∃ next', commandStep lib st' arrival = .ok next' ∧ HasMore (res.copyTo old) next next' := by
  obtain ⟨⟨answer, after⟩, ran, done⟩ := bind_eq_ok.mp done
  obtain rfl := pure_eq_ok.mp done
  suffices same : ∃ next', execCommand lib arrival.1 (arrival.2[·]?) st' = .ok (answer, next')
      ∧ HasMore (res.copyTo old) after next' by
    obtain ⟨next', ran', more'⟩ := same
    exact ⟨next', by rw [commandStep, ran']; rfl, more'⟩
  unfold execCommand at ran ⊢
  cases named : searchCmdNode arrival.2[0]? with
  | none =>
      rw [named] at ran
      obtain ⟨rfl, rfl⟩ := Prod.mk.inj (Except.ok.inj ran)
      exact ⟨st', rfl, more⟩
  | some node =>
      rw [named] at ran
      by_cases mapserver : node = .mapserver
      · subst mapserver
        refine more.configMapServer (fun other resolved old' same => ?_) ran
        obtain ⟨rfl, _⟩ := copyTo_eq_iff.mp same
        exact unnamed ⟨named, resolved⟩
      · have blind := CmdNode.func_blind lib arrival.1 (arrival.2[·]?) mapserver
        dsimp only at ran ⊢
        have kept := blind.keeps ran
        rw [more.others, blind, ran]
        refine ⟨_, rfl, ?_, rfl⟩
        rw [kept]
        exact more.servers

/-- And so does a run of such commands; by induction on the run. -/
theorem HasMore.run {lib : Library} {res : AiAddr} {old : SockaddrStorage}
    {between : List Arrival} (more : HasMore (res.copyTo old) st st')
    (unnamed : ∀ arrival ∈ between, ¬ Names lib res arrival.2)
    (ran : EventRuns.run (commandStep lib) st between = .ok next)
    : ∃ next', EventRuns.run (commandStep lib) st' between = .ok next'
        ∧ HasMore (res.copyTo old) next next' := by
  induction between generalizing st st' with
  | nil =>
      obtain rfl := Except.ok.inj ran
      exact ⟨st', rfl, more⟩
  | cons arrival rest ih =>
      obtain ⟨after, done, ran⟩ := EventRuns.run_cons_eq_ok.mp ran
      obtain ⟨after', done', more'⟩ := more.step (unnamed arrival (by simp)) done
      obtain ⟨next', ran', more''⟩ :=
        ih more' (fun other mem => unnamed other (List.mem_cons_of_mem _ mem)) ran
      exact ⟨next', EventRuns.run_cons_eq_ok.mpr ⟨after', done', ran'⟩, more''⟩

end

-----------------------------------------------------------------------------------------
-- Deleting what was added
-----------------------------------------------------------------------------------------

/-- `mapserver A delete` after the run succeeds, and the map servers are those of the run from
before `mapserver A`.
-/
def Undone (lib : Library) (junk : Junk) (name : List Byte) (st : Lixyd) (between : List Arrival)
    (before : Lixyd) : Prop :=
  ∃ deleted neither,
    execCommand lib junk ([ascii "mapserver", name, ascii "delete"][·]?) before
        = .ok (.success, deleted)
      ∧ run (commandStep lib) st between = .ok neither
      ∧ deleted.mapsrvTuple.nodes.Perm neither.mapsrvTuple.nodes

section

variable {lib : Library} {res : AiAddr} {junk junk' : Junk} {name : List Byte}
  {st added before : Lixyd} {between : List Arrival}

/-- What is added: the copied address, at the end. -/
theorem execCommand_added (resolved : lib.getaddrinfo (some name) lispControlPort = some res)
    (set : execCommand lib junk ([ascii "mapserver", name][·]?) st = .ok (.success, added))
    : HasMore (res.copyTo junk.sockaddr) added st := by
  change cmdSetMapServer lib junk ([ascii "mapserver", name][·]?) st = _ at set
  rw [cmdSetMapServer_eq] at set
  change (lib.getaddrinfo (some name) lispControlPort).elim _ _ = _ at set
  rw [resolved] at set
  obtain ⟨_, rfl⟩ := Prod.mk.inj (Except.ok.inj set)
  exact ⟨List.perm_append_singleton _ _, rfl⟩

/-- A run undoes the addition exactly where both copies are the same. -/
theorem undone_iff (resolved : lib.getaddrinfo (some name) lispControlPort = some res)
    (unnamed : ∀ arrival ∈ between, ¬ Names lib res arrival.2)
    (set : execCommand lib junk ([ascii "mapserver", name][·]?) st = .ok (.success, added))
    (ran : run (commandStep lib) added between = .ok before)
    : Undone lib junk' name st between before
      ↔ res.copyTo junk.sockaddr = res.copyTo junk'.sockaddr := by
  obtain ⟨neither, ran', more⟩ := (execCommand_added resolved set).run unnamed ran
  have deletes : execCommand lib junk' ([ascii "mapserver", name, ascii "delete"][·]?) before
      = (unsetLispMapserver (res.copyTo junk'.sockaddr) before).elim
          (answer .errInvalidAddress before) (answer .success) := by
    change cmdDeleteMapServer lib junk' ([ascii "mapserver", name, ascii "delete"][·]?) before = _
    rw [cmdDeleteMapServer_eq]
    change ((lib.getaddrinfo (some name) lispControlPort).bind _).elim _ _ = _
    rw [resolved, Option.bind_some]
  rw [Undone, deletes]
  rcases unsetLispMapserver_cases (res.copyTo junk'.sockaddr) before
    with ⟨missed, absent⟩ | ⟨servers, hit, mem, nodes⟩
  · rw [missed]
    constructor
    · rintro ⟨_, _, failed, _⟩
      cases failed
    · intro same
      have added := more.servers.mem_iff.mpr List.mem_cons_self
      exact absurd (same ▸ added) absent
  · rw [hit]
    constructor
    · rintro ⟨deleted, neither', done, again, perm⟩
      obtain ⟨_, rfl⟩ := Prod.mk.inj (Except.ok.inj done)
      obtain rfl := Except.ok.inj (ran'.symm.trans again)
      -- the same list with either copy in front
      have back := List.perm_cons_erase mem
      rw [← nodes] at back
      have both := (more.servers.symm.trans back).trans (perm.cons _)
      rw [← Multiset.coe_eq_coe, ← Multiset.cons_coe, ← Multiset.cons_coe] at both
      exact (Multiset.cons_inj_left _).mp both
    · intro same
      refine ⟨_, neither, rfl, ran', ?_⟩
      have erased := more.servers.erase (res.copyTo junk.sockaddr)
      rw [List.erase_cons_head, same, ← nodes] at erased
      exact erased

/-- After `mapserver A` and any commands that do not name its address, `mapserver A delete`
undoes it exactly where the variables of both commands agree behind the address.
-/
theorem mapserver_undone_iff (resolved : lib.getaddrinfo (some name) lispControlPort = some res)
    (unnamed : ∀ arrival ∈ between, ¬ Names lib res arrival.2)
    (set : execCommand lib junk ([ascii "mapserver", name][·]?) st = .ok (.success, added))
    (ran : run (commandStep lib) added between = .ok before)
    : Undone lib junk' name st between before
      ↔ res.leftOver junk.sockaddr = res.leftOver junk'.sockaddr := by
  rw [undone_iff resolved unnamed set ran, copyTo_eq_iff, and_iff_right rfl]

end

/-- `mapserver 192.0.2.1`, `mapserver 192.0.2.2` and the deletion of the first, with all
variables zeroed.
-/
theorem testMapserver_undone
    : ∃ before, run (commandStep testLibrary) .start
          [(testJunk, [ascii "mapserver", ascii "192.0.2.1"]),
            (testJunk, [ascii "mapserver", ascii "192.0.2.2"])] = .ok before
        ∧ Undone testLibrary testJunk (ascii "192.0.2.1") .start
            [(testJunk, [ascii "mapserver", ascii "192.0.2.2"])] before := by
  obtain ⟨res, added, before, resolved, other, set, ran, both⟩ : ∃ res added before,
      testLibrary.getaddrinfo (some (ascii "192.0.2.1")) lispControlPort = some res
      ∧ testLibrary.getaddrinfo (some (ascii "192.0.2.2")) lispControlPort ≠ some res
      ∧ execCommand testLibrary testJunk ([ascii "mapserver", ascii "192.0.2.1"][·]?) .start
        = .ok (.success, added)
      ∧ run (commandStep testLibrary) added
        [(testJunk, [ascii "mapserver", ascii "192.0.2.2"])] = .ok before
      ∧ run (commandStep testLibrary) .start
        [(testJunk, [ascii "mapserver", ascii "192.0.2.1"]),
          (testJunk, [ascii "mapserver", ascii "192.0.2.2"])] = .ok before :=
    ⟨_, _, _, rfl, by decide, rfl, rfl, rfl⟩
  refine ⟨before, both, (mapserver_undone_iff resolved (fun arrival mem => ?_) set ran).mpr rfl⟩
  obtain rfl := List.mem_singleton.mp mem
  exact fun names => other names.2

/-- Variables for testing that hold ones. -/
def staleJunk : Junk :=
  { testJunk with sockaddr := { SockaddrStorage.zero with rest := List.Vector.replicate 104 1 } }

/-- A map server that is added over zeros is not found by a deletion over ones. -/
theorem staleMapserver_not_undone
    : ¬ ∀ (lib : Library) (res : AiAddr) (junk junk' : Junk) (name : List Byte)
          (between : List Arrival) (st added before : Lixyd),
        lib.getaddrinfo (some name) lispControlPort = some res
          → (∀ arrival ∈ between, ¬ Names lib res arrival.2)
          → execCommand lib junk ([ascii "mapserver", name][·]?) st = .ok (.success, added)
          → run (commandStep lib) added between = .ok before
          → Undone lib junk' name st between before := by
  intro undone
  obtain ⟨res, added, resolved, set, ne⟩ : ∃ res added,
      testLibrary.getaddrinfo (some (ascii "192.0.2.1")) lispControlPort = some res
      ∧ execCommand testLibrary testJunk ([ascii "mapserver", ascii "192.0.2.1"][·]?) .start
        = .ok (.success, added)
      ∧ res.copyTo testJunk.sockaddr ≠ res.copyTo staleJunk.sockaddr :=
    ⟨_, _, rfl, rfl, by decide⟩
  have unnamed : ∀ arrival ∈ ([] : List Arrival), ¬ Names testLibrary res arrival.2 :=
    List.forall_mem_nil _
  have same := undone testLibrary res testJunk staleJunk (ascii "192.0.2.1") [] .start added added
    resolved unnamed set rfl
  exact ne ((undone_iff resolved unnamed set rfl).mp same)

end Lixy.Control
