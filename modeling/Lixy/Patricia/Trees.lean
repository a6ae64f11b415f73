import Lixy.Patricia.Prefixes

/-! The patricia tree of patricia.c: nodes, positions in the tree, and its operations.
A pointer into the tree is a position, that is a node together with the path above it;
following `parent` links is walking that path.
-/

namespace Lixy

open ByteStrings

/-- `patricia_node_t`; `null` is the NULL pointer and `addr` the address of the node.
A node without a prefix is glue.
-/
inductive PatriciaNode (α : Type) where
  | null
  | node (addr bit : Nat) (pfx : Option Prefix) (data : Option α) (l r : PatriciaNode α)
deriving DecidableEq

/-- `patricia_tree_t`; `brk` is the next address that `calloc` hands out. -/
structure PatriciaTree (α : Type) where
  head : PatriciaNode α
  maxbits : Nat
  numActiveNode : Int
  brk : Nat

/-- One step of a path: a node with the child the path comes through left out.
`right` tells which child that is.
-/
structure Frame (α : Type) where
  addr : Nat
  bit : Nat
  pfx : Option Prefix
  data : Option α
  right : Bool
  sibling : PatriciaNode α

/-- A node of the tree and the path from it up to the head. -/
structure Loc (α : Type) where
  node : PatriciaNode α
  path : List (Frame α)

namespace PatriciaNode

variable {α : Type}

def isNull : PatriciaNode α → Bool
  | null => true
  | node .. => false

/-- The pointer to a node. -/
def ptr : PatriciaNode α → Option Nat
  | null => none
  | node addr .. => some addr

/-- `node->data = d` -/
def setData (d : α) : PatriciaNode α → PatriciaNode α
  | null => null
  | node addr bit pfx _ l r => node addr bit pfx (some d) l r

/-- The number of nodes. -/
def size : PatriciaNode α → Nat
  | null => 0
  | node _ _ _ _ l r => size l + size r + 1

end PatriciaNode

/-- Put a child back into the frame it was left out of. -/
def Frame.fill {α : Type} (f : Frame α) (child : PatriciaNode α) : PatriciaNode α :=
  if f.right then
    .node f.addr f.bit f.pfx f.data f.sibling child
  else
    .node f.addr f.bit f.pfx f.data child f.sibling

/-- The whole tree around a position. -/
def plug {α : Type} : PatriciaNode α → List (Frame α) → PatriciaNode α
  | n, [] => n
  | n, f :: path => plug (f.fill n) path

/-- The head of the tree a position lies in. -/
def Loc.head {α : Type} (z : Loc α) : PatriciaNode α := plug z.node z.path

/-- The position of the node stored at address `a` in the subtree `n` below `path`. -/
def locate {α : Type} (a : Nat) : PatriciaNode α → List (Frame α) → Option (Loc α)
  | .null, _ => none
  | .node addr bit pfx data l r, path =>
      if addr = a then
        some ⟨.node addr bit pfx data l r, path⟩
      else
        match locate a l (⟨addr, bit, pfx, data, false, r⟩ :: path) with
        | some found => some found
        | none => locate a r (⟨addr, bit, pfx, data, true, l⟩ :: path)

/-- `node->data = d` for the node at a position. -/
def Loc.setData {α : Type} (z : Loc α) (d : α) : Loc α := { z with node := z.node.setData d }

/-- `node->data` for the node at a position. -/
def Loc.data {α : Type} (z : Loc α) : Option α :=
  match z.node with
  | .null => none
  | .node _ _ _ data _ _ => data

section Operations

variable {α : Type}

/-- `New_Patricia` -/
def newPatricia (maxbits : Nat) : PatriciaTree α :=
  { head := .null, maxbits, numActiveNode := 0, brk := 0 }

-----------------------------------------------------------------------------------------
-- patricia_search_best2
-----------------------------------------------------------------------------------------

/-- The way down, with the nodes that carry a prefix pushed on `stack`. -/
def searchDescend (addr : List Byte) (bitlen : Nat)
    : PatriciaNode α → List (Frame α) → List (Loc α) → Loc α × List (Loc α)
  | .null, path, stack => (⟨.null, path⟩, stack)
  | .node a bit pfx data l r, path, stack =>
      if bit < bitlen then
        let stack := if pfx.isSome then ⟨.node a bit pfx data l r, path⟩ :: stack else stack
        if addrBit addr bit then
          searchDescend addr bitlen r (⟨a, bit, pfx, data, true, l⟩ :: path) stack
        else
          searchDescend addr bitlen l (⟨a, bit, pfx, data, false, r⟩ :: path) stack
      else
        (⟨.node a bit pfx data l r, path⟩, stack)

def Loc.hasPrefix (z : Loc α) : Bool :=
  match z.node with
  | .node _ _ (some _) _ _ _ => true
  | _ => false

/-- The test that ends the pop loop. -/
def Loc.matches (addr : List Byte) (bitlen : Nat) (z : Loc α) : Bool :=
  match z.node with
  | .node _ _ (some p) _ _ _ =>
      compWithMask p.add.toList addr p.bitlen && decide (p.bitlen ≤ bitlen)
  | _ => false

/-- `patricia_search_best2` -/
def patriciaSearchBest2 (patricia : PatriciaTree α) (pfx : Prefix) (inclusive : Bool)
    : Except Fault (Option (Loc α)) :=
  if pfx.bitlen ≤ patricia.maxbits then
    let addr := pfx.add.toList
    let (last, stack) := searchDescend addr pfx.bitlen patricia.head [] []
    let stack := if inclusive && last.hasPrefix then last :: stack else stack
    .ok (stack.find? (Loc.matches addr pfx.bitlen))
  else
    .error (.assertFailed .bitlenFits)

/-- `patricia_search_best` -/
def patriciaSearchBest (patricia : PatriciaTree α) (pfx : Prefix)
    : Except Fault (Option (Loc α)) :=
  patriciaSearchBest2 patricia pfx true

-----------------------------------------------------------------------------------------
-- patricia_lookup
-----------------------------------------------------------------------------------------

/-- The way down to a node to compare with. Glue is always left again, a node with a
prefix only while it is shorter than the new one.
-/
def lookupDescend (addr : List Byte) (bitlen maxbits : Nat)
    : PatriciaNode α → List (Frame α) → Loc α
  | .null, path => ⟨.null, path⟩
  | .node a bit pfx data l r, path =>
      if bit < bitlen ∨ pfx.isNone then
        if bit < maxbits ∧ addrBit addr bit then
          if r.isNull then
            ⟨.node a bit pfx data l r, path⟩
          else
            lookupDescend addr bitlen maxbits r (⟨a, bit, pfx, data, true, l⟩ :: path)
        else
          if l.isNull then
            ⟨.node a bit pfx data l r, path⟩
          else
            lookupDescend addr bitlen maxbits l (⟨a, bit, pfx, data, false, r⟩ :: path)
      else
        ⟨.node a bit pfx data l r, path⟩

/-- `while (parent && parent->bit >= differ_bit)`: the way back up. -/
def climb (differ : Nat) : PatriciaNode α → List (Frame α) → Loc α
  | n, [] => ⟨n, []⟩
  | n, f :: path => if differ ≤ f.bit then climb differ (f.fill n) path else ⟨n, f :: path⟩

/-- The end of `patricia_lookup`: find, complete or add the node for `pfx` at position
`z`, where `testAddr` is the address compared with and `differ` the first bit different.
-/
def patriciaAttach (patricia : PatriciaTree α) (pfx : Prefix) (testAddr : List Byte)
    (differ : Nat) (z : Loc α)
    : Except Fault (PatriciaTree α × Loc α) :=
  match z.node with
  | .null => .error .nullDereference
  | .node a bit npfx data l r =>
      let addr := pfx.add.toList
      let bitlen := pfx.bitlen
      let fresh : PatriciaNode α := .node patricia.brk bitlen (refPrefix pfx) none .null .null
      -- the tree around a new position, with `k` nodes allocated on the way
      let grown (k : Nat) (at_ : Loc α) : PatriciaTree α × Loc α :=
        ({ patricia with
            head := at_.head
            numActiveNode := patricia.numActiveNode + k
            brk := patricia.brk + k }, at_)
      if differ = bitlen ∧ bit = bitlen then
        match npfx with
        | some _ => .ok (patricia, z)
        | none =>
            if data.isSome then
              .error (.assertFailed .nodeHasNoData)
            else
              .ok (grown 0 ⟨.node a bit (refPrefix pfx) data l r, z.path⟩)
      else if bit = differ then
        -- a new child of the node
        if bit < patricia.maxbits ∧ addrBit addr bit then
          if r.isNull then
            .ok (grown 1 ⟨fresh, ⟨a, bit, npfx, data, true, l⟩ :: z.path⟩)
          else
            .error (.assertFailed .rightFree)
        else
          if l.isNull then
            .ok (grown 1 ⟨fresh, ⟨a, bit, npfx, data, false, r⟩ :: z.path⟩)
          else
            .error (.assertFailed .leftFree)
      else if bitlen = differ then
        -- a new parent of the node
        if bitlen < patricia.maxbits ∧ addrBit testAddr bitlen then
          .ok (grown 1 ⟨.node patricia.brk bitlen (refPrefix pfx) none .null z.node, z.path⟩)
        else
          .ok (grown 1 ⟨.node patricia.brk bitlen (refPrefix pfx) none z.node .null, z.path⟩)
      else
        -- glue above the node and its new sibling
        let right := decide (differ < patricia.maxbits) && addrBit addr differ
        .ok (grown 2 ⟨fresh, ⟨patricia.brk + 1, differ, none, none, right, z.node⟩ :: z.path⟩)

/-- `patricia_lookup`: the position of the node for `pfx`, added when it is missing. -/
def patriciaLookup (patricia : PatriciaTree α) (pfx : Prefix)
    : Except Fault (PatriciaTree α × Loc α) :=
  if pfx.bitlen ≤ patricia.maxbits then
    let addr := pfx.add.toList
    if patricia.head.isNull then
      let head : PatriciaNode α :=
        .node patricia.brk pfx.bitlen (refPrefix pfx) none .null .null
      .ok ({ patricia with
              head
              numActiveNode := patricia.numActiveNode + 1
              brk := patricia.brk + 1 }, ⟨head, []⟩)
    else
      let stop := lookupDescend addr pfx.bitlen patricia.maxbits patricia.head []
      match stop.node with
      | .null => .error .nullDereference
      | .node _ _ none _ _ _ => .error (.assertFailed .nodeHasPrefix)
      | .node _ bit (some test) _ _ _ =>
          let checkBit := if bit < pfx.bitlen then bit else pfx.bitlen
          let differ := differBit addr test.add.toList checkBit
          patriciaAttach patricia pfx test.add.toList differ (climb differ stop.node stop.path)
  else
    .error (.assertFailed .bitlenFits)

-----------------------------------------------------------------------------------------
-- patricia_remove
-----------------------------------------------------------------------------------------

/-- `patricia_remove` of the node at a position. `Deref_Prefix` frees the prefix copy;
`Delete` frees the node, and the glue above a removed leaf with it.
-/
def patriciaRemove (patricia : PatriciaTree α) (z : Loc α) : Except Fault (PatriciaTree α) :=
  match z.node with
  | .null => .error .nullDereference
  | .node a bit _ _ l r =>
      if !r.isNull && !l.isNull then
        .ok { patricia with head := plug (.node a bit none none l r) z.path }
      else if r.isNull && l.isNull then
        match z.path with
        | [] => .ok { patricia with head := .null, numActiveNode := patricia.numActiveNode - 1 }
        | f :: path =>
            if f.pfx.isSome then
              .ok { patricia with
                      head := plug (f.fill .null) path
                      numActiveNode := patricia.numActiveNode - 1 }
            else if f.sibling.isNull then
              -- `child->parent` is written through the NULL sibling
              .error .nullDereference
            else
              .ok { patricia with
                      head := plug f.sibling path
                      numActiveNode := patricia.numActiveNode - 2 }
      else
        let child := if r.isNull then l else r
        .ok { patricia with
                head := plug child z.path
                numActiveNode := patricia.numActiveNode - 1 }

end Operations

end Lixy
