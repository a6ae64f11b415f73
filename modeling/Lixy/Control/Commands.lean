import Lixy.Control.Configuration

/-! The commands of control.c on EIDs, routes and listings, and the control thread: a message
is split at blanks, its first word picks the command.
-/

namespace Lixy.Control

open ByteStrings

-----------------------------------------------------------------------------------------
-- EIDs
-----------------------------------------------------------------------------------------

/-- `search_eid`, with `compare_eid`: at most the length of the name field counts. -/
def searchEid (eidName : List Byte) (st : Lixyd) : Option (Nat × Eid) :=
  searchListnode st.eidTuple fun eid => strncmp lispEidNameLen eidName eid.name.toList

/-- `create_eid_instance` -/
def createEidInstance (eidname : List Byte) : Eid :=
  { name := strncpy lispEidNameLen eidname
    authkey := zeros lispMaxKeylen
    prefixTuple := createList }

/-- Assign to an EID through its pointer. -/
def Lixyd.writeEid (st : Lixyd) (place : Nat) (eid : Eid) : Lixyd :=
  { st with eidTuple := st.eidTuple.write place eid }

/-- `compare_prefix` -/
def comparePrefix (p1 p2 : Prefix) : Bool :=
  if p1.family ≠ p2.family then
    false
  else if p1.bitlen ≠ p2.bitlen then
    false
  else if p1.family = afInet then
    sin p1.add == sin p2.add
  else if p1.family = afInet6 then
    p1.add == p2.add
  else
    false

/-- `search_prefix` -/
def searchPrefix (list : ListT Prefix) (pfx : Prefix) : Option (Nat × Prefix) :=
  searchListnode list (comparePrefix pfx)

section

variable (lib : Library) (junk : Junk) (args : Args)

/-- `cmd_create_eid` -/
def cmdCreateEid : Command := fun st => do
  let eidName ← present (args 1)
  match searchEid eidName st with
  | some _ => answer .errEidExists st
  | none =>
      let eid := createEidInstance eidName
      answer .success { st with eidTuple := appendListnode st.eidTuple eid }

/-- `cmd_delete_eid` -/
def cmdDeleteEid : Command := fun st => do
  match searchEid (← present (args 1)) st with
  | none => answer .errEidDoesNotExists st
  | some (place, _) => answer .success { st with eidTuple := deleteListnode st.eidTuple place }

/-- `cmd_set_eid_authentication_key`; the key and its NUL go over the field's start. -/
def cmdSetEidAuthenticationKey : Command := fun st => do
  match searchEid (← present (args 1)) st with
  | none => answer .errEidDoesNotExists st
  | some (place, eid) =>
      let key ← present (args 3)
      if key.length > lispMaxKeylen then
        answer .errAuthkeyTooLong st
      else
        let authkey ← memcpy eid.authkey (key ++ [0])
        answer .success (st.writeEid place { eid with authkey })

/-- The start of `cmd_set_eid_prefix` and `cmd_unset_eid_prefix`: the prefix that an argument
stands for, in the family its address resolves to.
-/
def eidPrefix (cPrefix : List Byte) : Except CommandFault (Option Prefix) := do
  let addrbuf ← memcpy junk.addrbuf (cPrefix ++ [0])
  let string ← call (rdString addrbuf.toList 0)
  if 0x2f ∉ string then
    return none
  else
    match lib.getaddrinfo (some (string.takeWhile (· ≠ 0x2f))) lispControlPort with
    | none => return none
    | some res => call <| ascii2prefix lib.inetPton6 res.family cPrefix

/-- `cmd_set_eid_prefix` -/
def cmdSetEidPrefix : Command := fun st => do
  match args 1, args 3 with
  | some eidName, some cPrefix =>
      match searchEid eidName st with
      | none => answer .errEidDoesNotExists st
      | some (place, eid) =>
          match ← eidPrefix lib junk cPrefix with
          | none => answer .errInvalidAddress st
          | some pfx =>
              match searchPrefix eid.prefixTuple pfx with
              | some _ => answer .errAddressExists st
              | none =>
                  let prefixTuple := appendListnode eid.prefixTuple pfx
                  answer .success (st.writeEid place { eid with prefixTuple })
  | _, _ => answer .errInvalidCommand st

/-- `cmd_unset_eid_prefix` -/
def cmdUnsetEidPrefix : Command := fun st => do
  match args 1, args 2, args 3 with
  | some eidName, some _, some cPrefix =>
      match searchEid eidName st with
      | none => answer .errEidDoesNotExists st
      | some (place, eid) =>
          match ← eidPrefix lib junk cPrefix with
          | none => answer .errInvalidAddress st
          | some pfx =>
              match searchPrefix eid.prefixTuple pfx with
              | none => answer .errAddressDoesNotExists st
              | some (pplace, _) =>
                  let prefixTuple := deleteListnode eid.prefixTuple pplace
                  answer .success (st.writeEid place { eid with prefixTuple })
  | _, _, _ => answer .errInvalidCommand st

/-- `config_eid` -/
def configEid : Command := fun st => do
  if args 1 = none ∨ args 2 = none then
    answer .errInvalidCommand st
  else if ← strcmp (args 2) "create" then
    cmdCreateEid args st
  else if ← strcmp (args 2) "delete" then
    cmdDeleteEid args st
  else if ← strcmp (args 2) "authkey" then
    cmdSetEidAuthenticationKey args st
  else if ← strcmp (args 2) "prefix" then
    if args 4 = none then
      cmdSetEidPrefix lib junk args st
    else if ← strcmp (args 4) "delete" then
      cmdUnsetEidPrefix lib junk args st
    else
      answer .errInvalidCommand st
  else
    answer .errInvalidCommand st

-----------------------------------------------------------------------------------------
-- Routes
-----------------------------------------------------------------------------------------

/-- The family that a route command names. -/
def routeFamily (cAf : Option (List Byte)) : Except CommandFault (Option Nat) := do
  if ← strcmp cAf "ipv4" then
    return some afInet
  else if ← strcmp cAf "ipv6" then
    return some afInet6
  else
    return none

/-- `cmd_install_route` -/
def cmdInstallRoute : Command := fun st => do
  match ← routeFamily (args 1) with
  | none => answer .errInvalidCommand st
  | some af =>
      match lib.getaddrinfo (args 3) lispDataPort with
      | none => answer .errInvalidAddress st
      | some res =>
          match ← call <| ascii2prefix lib.inetPton6 af (← present (args 2)) with
          | none => answer .errInvalidAddress st
          | some dstPrefix =>
              let lisp ← call (installMapnodeStatic st.lisp dstPrefix (res.copyTo .zero))
              answer .success { st with lisp }

/-- `cmd_uninstall_route` -/
def cmdUninstallRoute : Command := fun st => do
  match ← routeFamily (args 1) with
  | none => answer .errInvalidCommand st
  | some af =>
      match ← call <| ascii2prefix lib.inetPton6 af (← present (args 2)) with
      | none => answer .errInvalidAddress st
      | some dstPrefix =>
          match ← call (uninstallMapnodeStatic st.lisp dstPrefix) with
          | (lisp, false) => answer .errFailed { st with lisp }
          | (lisp, true) => answer .success { st with lisp }

/-- `config_route` -/
def configRoute : Command := fun st => do
  if args 1 = none ∨ args 2 = none ∨ args 3 = none then
    answer .errInvalidCommand st
  else if ← strcmp (args 3) "delete" then
    cmdUninstallRoute lib args st
  else
    cmdInstallRoute lib args st

end

-----------------------------------------------------------------------------------------
-- Listings
-----------------------------------------------------------------------------------------

/-- A line of a listing, as the data that it is printed from. -/
inductive ShowLine
  | route (dst : Prefix) (via : SockaddrStorage) (state : MapState)
  | eid (eid : Eid)
  | mapserver (mapsrvaddr : SockaddrStorage)
  | locatorCount (count : BitVec 32)
  | locator (loc : Locator)

/-- A listing: its lines, with the answer and the daemon. -/
abbrev Listing := Lixyd → Except CommandFault (ReturnType × List ShowLine × Lixyd)

/-- The value of `MAPSTATE_*`. -/
def mapstate : MapState → Int
  | .active => 0
  | .negative => 1
  | .drop => 2
  | .queried => 3
  | .static => 4

/-- The state that `show` filters by; negative for all, and not set for an unknown type. -/
def showState (junk : Junk) (type : Option (List Byte)) : Except CommandFault Int := do
  if type = none then
    return -1
  else if ← strcmp type "active" then
    return mapstate .active
  else if ← strcmp type "negative" then
    return mapstate .negative
  else if ← strcmp type "drop" then
    return mapstate .drop
  else if ← strcmp type "queried" then
    return mapstate .queried
  else if ← strcmp type "static" then
    return mapstate .static
  else
    return junk.state

/-- `state < 0 || state == mn->state` -/
def selects (state : Int) (mn : Option Mapnode) : Except Fault Bool :=
  if state < 0 then
    .ok true
  else
    match mn with
    | some mn => .ok (state == mapstate mn.state)
    | none => .error .nullDereference

/-- The body of the walk in `cmd_show_route`. -/
def showRouteNode (af : Nat) (state : Int) (shown : List ShowLine × Lisp) (pn : Loc Mapnode)
    : Except Fault ((List ShowLine × Lisp) × Bool) :=
  match pn.node with
  | .node _ _ (some pfx) data _ _ => do
      if (← selects state data) = false then
        return (shown, false)
      else if pfx.family ≠ af then
        return (shown, true)
      else
        match data with
        | some mn => return ((shown.1 ++ [.route pfx mn.addr mn.state], shown.2), false)
        | none => .error .nullDereference
  | _ => .error .nullDereference

section

variable (junk : Junk) (args : Args)

/-- `cmd_show_route` -/
def cmdShowRoute (af : Nat) : Listing := fun st => do
  let state ← showState junk (args 2)
  let walk ← call (walkTree (fun (shown : List ShowLine × Lisp) => shown.2.rib.tree.head)
    (showRouteNode af state) ([], st.lisp))
  return (.successNoMessage, walk.st.1, { st with lisp := walk.st.2 })

/-- `cmd_show_eid` -/
def cmdShowEid : Listing := fun st =>
  match args 2 with
  | some eidName =>
      match searchEid eidName st with
      | none => .ok (.errEidDoesNotExists, [], st)
      | some (_, eid) => .ok (.successNoMessage, [.eid eid], st)
  | none => .ok (.successNoMessage, st.eidTuple.nodes.map .eid, st)

/-- `cmd_show_mapserver` -/
def cmdShowMapserver : Listing := fun st =>
  .ok (.successNoMessage, st.mapsrvTuple.nodes.map .mapserver, st)

/-- `cmd_show_locator` -/
def cmdShowLocator : Listing := fun st =>
  .ok (.successNoMessage, .locatorCount st.locTuple.count :: st.locTuple.nodes.map .locator, st)

/-- `config_show` -/
def configShow : Listing := fun st => do
  if args 1 = none then
    return (.errInvalidCommand, [], st)
  else if ← strcmp (args 1) "ipv4-route" then
    cmdShowRoute junk args afInet st
  else if ← strcmp (args 1) "ipv6-route" then
    cmdShowRoute junk args afInet6 st
  else if ← strcmp (args 1) "eid" then
    cmdShowEid args st
  else if ← strcmp (args 1) "mapserver" then
    cmdShowMapserver st
  else if ← strcmp (args 1) "locator" then
    cmdShowLocator st
  else
    return (.errInvalidCommand, [], st)

end

end Lixy.Control
