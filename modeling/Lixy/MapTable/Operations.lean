import Lixy.Patricia.Walks

/-! The map table of maptable.c, the kernel routes kept beside it, and the operations of
the control commands and of the TTL thread on both.
-/

namespace Lixy

open ByteStrings

/-- `MAPSTATE_*` -/
inductive MapState
  | active
  | negative
  | drop
  | queried
  | static
deriving DecidableEq, Repr

/-- `struct mapnode` -/
structure Mapnode where
  ttl : BitVec 32
  timer : BitVec 32
  state : MapState
  addr : SockaddrStorage
  locator : Locator
deriving DecidableEq

/-- A locator after `memset (.., 0, ..)`. -/
def Locator.zero : Locator :=
  { locAddr := .zero, priority := 0, weight := 0, mPriority := 0, mWeight := 0 }

/-- A mapnode after `memset (.., 0, ..)`; zero is MAPSTATE_ACTIVE. -/
def Mapnode.zero : Mapnode :=
  { ttl := 0, timer := 0, state := .active, addr := .zero, locator := .zero }

/-- `struct maptable` -/
structure Maptable where
  tree : PatriciaTree Mapnode
  count : BitVec 32

/-- `create_maptable` -/
def createMaptable : Maptable := { tree := newPatricia 128, count := 0 }

-----------------------------------------------------------------------------------------
-- The table alone
-----------------------------------------------------------------------------------------

/-- `update_mapnode`; the flag is false where the source returns NULL. -/
def updateMapnode (table : Maptable) (pfx : Prefix) (node : Mapnode)
    : Except Fault (Maptable × Bool) := do
  let (tree, pn) ← patriciaLookup table.tree pfx
  let stored : Maptable := { table with tree := { tree with head := (pn.setData node).head } }
  match pn.data with
  | some mn =>
      if mn.state = .static then
        return ({ table with tree }, false)
      else
        return (stored, true)
  | none => return (stored, true)

/-- `delete_mapnode`: the entry that matches best goes, whatever its length. -/
def deleteMapnode (table : Maptable) (pfx : Prefix)
    : Except Fault (Maptable × Option Mapnode) := do
  match ← patriciaSearchBest table.tree pfx with
  | none => return (table, none)
  | some pn =>
      let tree ← patriciaRemove table.tree pn
      return ({ tree, count := table.count - 1 }, pn.data)

/-- `search_mapnode`. The pointer it returns is the position that holds the mapnode,
together with the value there.
-/
def searchMapnode (table : Maptable) (pfx : Prefix)
    : Except Fault (Option (Loc Mapnode × Mapnode)) := do
  match ← patriciaSearchBest table.tree pfx with
  | none => return none
  | some pn => return pn.data.map (fun mn => (pn, mn))

/-- Assign through a pointer that `search_mapnode` or a walk returned. -/
def Maptable.write (table : Maptable) (pn : Loc Mapnode) (mn : Mapnode) : Maptable :=
  { table with tree := { table.tree with head := (pn.setData mn).head } }

/-- `install_mapnode_queried`; `garbage` is what `malloc` left in the mapnode. -/
def installMapnodeQueried (table : Maptable) (pfx : Prefix) (garbage : Mapnode)
    : Except Fault Maptable := do
  let (table, _) ← updateMapnode table pfx { garbage with state := .queried }
  return table

-----------------------------------------------------------------------------------------
-- The table and the routes to the tunnel
-----------------------------------------------------------------------------------------

/-- A kernel route to the tunnel device, as `op_route_to_dev` asks for it: the family, the
bytes of the destination's address and the prefix length.
-/
structure Route where
  family : Nat
  dst : List Byte
  dstLen : Nat
deriving DecidableEq, Repr

/-- The route for a prefix; any family but AF_INET has the longer address. -/
def Prefix.route (pfx : Prefix) : Route :=
  { family := pfx.family
    dst := if pfx.family = afInet then (sin pfx.add).toList else pfx.add.toList
    dstLen := pfx.bitlen }

/-- The state of the daemon that its events change: `lisp.rib`, the kernel's routes to
lisp0, and the calls of `send_map_request` and `send_map_reply`, newest first.
-/
structure Lisp where
  rib : Maptable
  routes : List Route
  mapRequests : List Prefix
  mapReplies : List (Prefix × List Byte × SockaddrStorage)

/-- The daemon after start. -/
def Lisp.start : Lisp :=
  { rib := createMaptable, routes := [], mapRequests := [], mapReplies := [] }

/-- `add_route_to_tun`; adding a present route changes nothing. -/
def addRouteToTun (pfx : Prefix) (lisp : Lisp) : Lisp :=
  if pfx.route ∈ lisp.routes then
    lisp
  else
    { lisp with routes := pfx.route :: lisp.routes }

/-- `del_route_to_tun`; deleting an absent route changes nothing. -/
def delRouteToTun (pfx : Prefix) (lisp : Lisp) : Lisp :=
  { lisp with routes := lisp.routes.filter (· ≠ pfx.route) }

/-- `send_map_request` -/
def sendMapRequest (pfx : Prefix) (lisp : Lisp) : Lisp :=
  { lisp with mapRequests := pfx :: lisp.mapRequests }

/-- `install_mapnode_static` on `lisp.rib` -/
def installMapnodeStatic (lisp : Lisp) (pfx : Prefix) (addr : SockaddrStorage)
    : Except Fault Lisp := do
  let (rib, stored) ← updateMapnode lisp.rib pfx
    { Mapnode.zero with state := .static, ttl := 0, addr }
  if stored then
    return addRouteToTun pfx { lisp with rib }
  else
    return { lisp with rib }

/-- `uninstall_mapnode_static` on `lisp.rib`; the flag is false where the source returns -1. -/
def uninstallMapnodeStatic (lisp : Lisp) (pfx : Prefix) : Except Fault (Lisp × Bool) := do
  match ← searchMapnode lisp.rib pfx with
  | none => return (lisp, false)
  | some (_, mn) =>
      if mn.state = .active ∨ mn.state = .queried then
        return (lisp, false)
      else
        let (rib, _) ← deleteMapnode lisp.rib pfx
        return (delRouteToTun pfx { lisp with rib }, true)

-----------------------------------------------------------------------------------------
-- The TTL thread
-----------------------------------------------------------------------------------------

/-- The body of the walk in `lisp_maptable_thread`. -/
def sweepNode (lisp : Lisp) (pn : Loc Mapnode) : Except Fault (Lisp × Bool) :=
  match pn.node with
  | .node _ _ (some pfx) (some mn) _ _ =>
      if mn.state = .static then
        .ok (lisp, true)
      else do
        let mn := { mn with ttl := mn.ttl - mapttlCheckInterval }
        let lisp := { lisp with rib := lisp.rib.write pn mn }
        if mn.ttl.toInt ≤ 0 then
          let lisp := if mn.state = .active then delRouteToTun pfx lisp else lisp
          let (rib, _) ← deleteMapnode lisp.rib pfx
          return ({ lisp with rib }, false)
        else
          match mn.state with
          | .active => return (sendMapRequest pfx lisp, false)
          | .negative => return (sendMapRequest pfx lisp, false)
          | .queried => return (sendMapRequest pfx lisp, false)
          | _ => return (lisp, false)
  | _ => .error .nullDereference

/-- One pass of the loop body of `lisp_maptable_thread`. -/
def sweep (lisp : Lisp) : Except Fault (Walk Lisp) :=
  walkTree (fun lisp => lisp.rib.tree.head) sweepNode lisp

end Lixy
