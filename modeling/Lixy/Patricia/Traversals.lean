import Lixy.Patricia.LibraryRuns
import Lixy.Patricia.Reaching

/-! The order in which the traversals of patricia.c meet the entries: `PATRICIA_WALK` a prefix
before all that it covers, `patricia_walk_inorder` between its two halves.
-/

namespace Lixy

open ByteStrings
open PatriciaNode
open LongestPrefix (Store)
open EventRuns (run)

variable {α : Type}

-----------------------------------------------------------------------------------------
-- patricia_process and patricia_walk_inorder
-----------------------------------------------------------------------------------------

section

variable {τ : Type} (func : Prefix → Option α → τ → τ)

/-- `func (node->prefix, node->data)`, for a `func` that leaves the tree alone. -/
def processNode (st : τ) (z : Loc α) : Except Fault (τ × Bool) :=
  match z.node with
  | .node _ _ (some pfx) data _ _ => .ok (func pfx data st, false)
  | _ => .error .nullDereference

/-- `patricia_process` -/
def patriciaProcess (patricia : PatriciaTree α) (st : τ) : Except Fault τ := do
  let w ← walkTree (fun _ => patricia.head) (processNode func) st
  return w.st

/-- The recursion of `patricia_walk_inorder`, with the number it returns. -/
def walkInorder : PatriciaNode α → τ → τ × Nat
  | .null, st => (st, 0)
  | .node _ _ pfx data l r, st =>
      let (st, left) := if l.isNull then (st, 0) else walkInorder l st
      let (st, own) :=
        match pfx with
        | some pfx => (func pfx data st, 1)
        | none => (st, 0)
      let (st, right) := if r.isNull then (st, 0) else walkInorder r st
      (st, left + own + right)

/-- `patricia_walk_inorder`; a NULL node is dereferenced. -/
def patriciaWalkInorder (node : PatriciaNode α) (st : τ) : Except Fault (τ × Nat) :=
  match node with
  | .null => .error .nullDereference
  | node => .ok (walkInorder func node st)

end

-----------------------------------------------------------------------------------------
-- Orders of keys
-----------------------------------------------------------------------------------------

/-- A key as a walk in order ranks it: bit 0, then the end of the key, then bit 1. -/
def inorderRank (key : List Bool) : List Nat := key.map (fun b => if b then 2 else 0) ++ [1]

/-- A key comes before all that it covers. -/
theorem key_lt_below {k key : List Bool} {b : Bool} (below : k ++ [b] <+: key) : k < key := by
  obtain ⟨rest, rfl⟩ := below
  have longer : k ++ [] < k ++ b :: rest := List.append_left_lt (List.nil_lt_cons b rest)
  rwa [List.append_nil, ← List.singleton_append, ← List.append_assoc] at longer

/-- What lies below bit 0 comes before what lies below bit 1. -/
theorem keys_lt_sides {k left right : List Bool} (hl : k ++ [false] <+: left)
    (hr : k ++ [true] <+: right)
    : left < right := by
  obtain ⟨restL, rfl⟩ := hl
  obtain ⟨restR, rfl⟩ := hr
  rw [List.append_assoc, List.append_assoc]
  refine List.append_left_lt ?_
  exact List.cons_lt_cons_iff.mpr (.inl (by decide))

theorem inorderRank_below {k key : List Bool} {b : Bool} (below : k ++ [b] <+: key)
    : ∃ rest, inorderRank key
        = k.map (fun b => if b then 2 else 0) ++ (if b then 2 else 0) :: rest := by
  obtain ⟨rest, rfl⟩ := below
  exact ⟨rest.map (fun b => if b then 2 else 0) ++ [1], by simp [inorderRank]⟩

/-- In order, what lies below bit 0 comes before the key. -/
theorem inorderRank_left {k key : List Bool} (below : k ++ [false] <+: key)
    : inorderRank key < inorderRank k := by
  obtain ⟨rest, rank⟩ := inorderRank_below below
  rw [rank, inorderRank]
  exact List.append_left_lt (List.cons_lt_cons_iff.mpr (.inl (by decide)))

/-- In order, what lies below bit 1 comes behind the key. -/
theorem inorderRank_right {k key : List Bool} (below : k ++ [true] <+: key)
    : inorderRank k < inorderRank key := by
  obtain ⟨rest, rank⟩ := inorderRank_below below
  rw [rank, inorderRank]
  exact List.append_left_lt (List.cons_lt_cons_iff.mpr (.inl (by decide)))

/-- In order, what lies below bit 0 comes before what lies below bit 1. -/
theorem inorderRank_sides {k left right : List Bool} (hl : k ++ [false] <+: left)
    (hr : k ++ [true] <+: right)
    : inorderRank left < inorderRank right := by
  obtain ⟨_, rankL⟩ := inorderRank_below hl
  obtain ⟨_, rankR⟩ := inorderRank_below hr
  rw [rankL, rankR]
  exact List.append_left_lt (List.cons_lt_cons_iff.mpr (.inl (by decide)))

-----------------------------------------------------------------------------------------
-- Orders of entries
-----------------------------------------------------------------------------------------

/-- The entries as a walk in order meets them. -/
def inorderEntries : PatriciaNode α → List (Prefix × α)
  | .null => []
  | .node _ _ pfx data l r => inorderEntries l ++ (nodeEntry pfx data ++ inorderEntries r)

theorem inorderEntries_perm (n : PatriciaNode α) : (inorderEntries n).Perm n.entries := by
  induction n with
  | null => exact List.Perm.refl _
  | node a bit pfx data l r ihl ihr =>
      rw [inorderEntries, entries_node]
      refine List.perm_append_comm_assoc _ _ _ |>.trans ?_
      exact (ihl.append ihr).append_left _

theorem nodeEntry_pairwise (pfx : Option Prefix) (data : Option α)
    (R : Prefix × α → Prefix × α → Prop)
    : (nodeEntry pfx data).Pairwise R := by
  cases pfx with
  | none => exact List.Pairwise.nil
  | some p =>
      cases data with
      | none => exact List.Pairwise.nil
      | some d => exact List.pairwise_singleton _ _

/-- The entries are in lexicographic order of their keys, by induction on the subtree. -/
theorem Hangs.entries_sorted {req : List Bool} {n : PatriciaNode α} (hn : Hangs req n)
    : n.entries.Pairwise fun e e' => e.1.key < e'.1.key := by
  induction n generalizing req with
  | null => exact List.Pairwise.nil
  | node a bit pfx data l r ihl ihr =>
      obtain ⟨k, _, h⟩ := hn.rooted (by simp)
      rw [entries_node, List.pairwise_append, List.pairwise_append]
      refine ⟨nodeEntry_pairwise _ _ _, ⟨ihl (h.side false), ihr (h.side true), ?_⟩, ?_⟩
      · exact fun e left e' right =>
          keys_lt_sides ((h.side false).key_below left) ((h.side true).key_below right)
      · intro e own e' below
        rw [(h.1.own e.1 (mem_nodeEntry.mp own).1).1]
        rcases List.mem_append.mp below with left | right
        · exact key_lt_below ((h.side false).key_below left)
        · exact key_lt_below ((h.side true).key_below right)

/-- In order, the entries are sorted by rank, by induction on the subtree. -/
theorem Hangs.inorder_sorted {req : List Bool} {n : PatriciaNode α} (hn : Hangs req n)
    : (inorderEntries n).Pairwise fun e e' => inorderRank e.1.key < inorderRank e'.1.key := by
  induction n generalizing req with
  | null => exact List.Pairwise.nil
  | node a bit pfx data l r ihl ihr =>
      obtain ⟨k, _, h⟩ := hn.rooted (by simp)
      have below (b : Bool) {n : PatriciaNode α} (child : Hangs (k ++ [b]) n) {e : Prefix × α}
          (mem : e ∈ inorderEntries n)
          : k ++ [b] <+: e.1.key :=
        child.key_below ((inorderEntries_perm n).mem_iff.mp mem)
      have own {e : Prefix × α} (mem : e ∈ nodeEntry pfx data) : e.1.key = k :=
        (h.1.own e.1 (mem_nodeEntry.mp mem).1).1
      rw [inorderEntries, List.pairwise_append, List.pairwise_append]
      refine ⟨ihl (h.side false), ⟨nodeEntry_pairwise _ _ _, ihr (h.side true), ?_⟩, ?_⟩
      · intro e here e' right
        rw [own here]
        exact inorderRank_right (below true (h.side true) right)
      · intro e left e' behind
        have left := below false (h.side false) left
        rcases List.mem_append.mp behind with here | right
        · rw [own here]
          exact inorderRank_left left
        · exact inorderRank_sides left (below true (h.side true) right)

-----------------------------------------------------------------------------------------
-- What the traversals call
-----------------------------------------------------------------------------------------

section

variable {τ : Type} {func : Prefix → Option α → τ → τ}

/-- A walk that never breaks off meets every entry. -/
theorem preorder_entries (n : PatriciaNode α)
    : (preorder (fun _ => false) n).flatMap ownEntry = n.entries := by
  induction n with
  | null => rfl
  | node a bit pfx data l r ihl ihr =>
      rw [preorder, if_neg Bool.false_ne_true, List.flatMap_cons, List.flatMap_append, ihl, ihr]
      rfl

/-- `patricia_process` replays `func` over the nodes. -/
theorem process_replays {patricia : PatriciaTree α} (ok : TreeOk patricia)
    : Replays (fun _ : τ => patricia.head) (processNode func) (fun _ => True) (fun _ => false)
        (fun _ => false) id
        (fun st n => (ownEntry n).foldl (fun st e => func e.1 (some e.2) st) st) where
  wf := fun _ _ => ok.wf
  distinct := fun _ _ => ok.distinct
  bare := fun _ _ _ _ _ => ⟨rfl, rfl, fun _ => rfl⟩
  step := by
    intro st z st' broke a bit pfx data l r _ visits node_eq done
    obtain ⟨e, a', bit', l', r', node_eq'⟩ := visits.entry
    have within := Loc.within (z := z) (by simp [node_eq])
    rw [node_eq, visits.head] at within
    obtain ⟨rfl, rfl, rfl, rfl, rfl, rfl⟩ := PatriciaNode.node.inj (node_eq.symm.trans node_eq')
    simp only [processNode, node_eq] at done
    obtain ⟨rfl, rfl⟩ := Prod.mk.inj (Except.ok.inj done)
    rw [node_eq]
    exact ⟨trivial, rfl, rfl, Keeps.refl within⟩

/-- `patricia_process` calls `func` with the entries in preorder. -/
theorem patriciaProcess_eq {patricia : PatriciaTree α} (ok : TreeOk patricia) (st : τ)
    : patriciaProcess func patricia st
      = .ok (patricia.head.entries.foldl (fun st e => func e.1 (some e.2) st) st) := by
  have replays : Replays (fun _ : τ => patricia.head) (processNode func) (fun _ => True)
      (fun _ => false) (fun _ => false) id
      (fun st n => (ownEntry n).foldl (fun st e => func e.1 (some e.2) st) st) :=
    process_replays ok
  have start : (fun _ : τ => True) st := trivial
  rcases replays.walkTree start
    with ⟨st', z, f, _, _, visits, _, failed⟩ | ⟨w, walked, _, folded, _⟩
  · obtain ⟨e, a, bit, l, r, node_eq⟩ := visits.entry
    simp [processNode, node_eq] at failed
  · rw [patriciaProcess, walked, ← preorder_entries, List.foldl_flatMap]
    exact congrArg Except.ok folded

/-- The recursion calls `func` with the entries in order, and counts them. -/
theorem walkInorder_eq {n : PatriciaNode α} {k : List Bool} (h : Hangs k n) (st : τ)
    : walkInorder func n st
      = ((inorderEntries n).foldl (fun st e => func e.1 (some e.2) st) st,
          (inorderEntries n).length) := by
  induction n generalizing k st with
  | null => rfl
  | node a bit pfx data l r ihl ihr =>
      obtain ⟨k', _, hk⟩ := h.rooted (by simp)
      have side (n : PatriciaNode α) (st : τ)
          : (if n.isNull then (st, 0) else walkInorder func n st) = walkInorder func n st := by
        cases n <;> rfl
      have order (st : τ) : walkInorder func (node a bit pfx data l r) st
          = ((inorderEntries r).foldl (fun st e => func e.1 (some e.2) st)
              ((nodeEntry pfx data).foldl (fun st e => func e.1 (some e.2) st)
                ((inorderEntries l).foldl (fun st e => func e.1 (some e.2) st) st)),
              (inorderEntries l).length + (nodeEntry pfx data).length
                + (inorderEntries r).length) := by
        simp only [walkInorder, side]
        rw [ihl (hk.side false)]
        cases pfx with
        | none =>
            rw [ihr (hk.side true)]
            rfl
        | some p =>
            obtain ⟨d, rfl⟩ := Option.isSome_iff_exists.mp (hk.1.own p rfl).2
            rw [ihr (hk.side true)]
            rfl
      rw [order, inorderEntries, List.foldl_append, List.foldl_append, List.length_append,
        List.length_append, Nat.add_assoc]

end

/-- The traversals of a tree call their function once for each key of the map that the tree's
calls built, with its data: `patricia_process` in lexicographic order of the keys, and
`patricia_walk_inorder` with a key behind the half of bit 0 below it and before that of bit 1.
-/
theorem traversals_sorted {inetPton6 : List Byte → Option (Bytes 16)} {calls : List (TreeCall α)}
    (fits : ∀ c ∈ calls, c.Fits inetPton6)
    : ∃ (t : PatriciaTree α) (map : Store Bool α) (entries inorder : List (Prefix × α)),
        run (treeStep inetPton6) (newPatricia 128) calls = .ok t
        ∧ map = calls.foldl (TreeCall.effect inetPton6) (fun _ => none)
        ∧ (∀ key d, map key = some d ↔ ∃ e ∈ entries, e.1.key = key ∧ e.2 = d)
        ∧ entries.Pairwise (fun e e' => e.1.key < e'.1.key)
        ∧ inorder.Perm entries
        ∧ inorder.Pairwise (fun e e' => inorderRank e.1.key < inorderRank e'.1.key)
        ∧ (∀ {τ : Type} (func : Prefix → Option α → τ → τ) (st : τ),
          patriciaProcess func t st
            = .ok (entries.foldl (fun st e => func e.1 (some e.2) st) st)
          ∧ patriciaWalkInorder func t.head st
            = if t.head.isNull then .error .nullDereference
              else .ok (inorder.foldl (fun st e => func e.1 (some e.2) st) st,
                inorder.length)) := by
  obtain ⟨t, done, rep⟩ := run_represents fits represents_newPatricia
  refine ⟨t, _, t.head.entries, inorderEntries t.head, done, rfl, rep.holds_iff,
    rep.ok.wf.entries_sorted, inorderEntries_perm _, rep.ok.wf.inorder_sorted, ?_⟩
  · intro τ func st
    refine ⟨patriciaProcess_eq rep.ok st, ?_⟩
    have order := @walkInorder_eq _ _ func _ _ rep.ok.wf st
    cases head : t.head with
    | null => rfl
    | node a bit pfx data l r =>
        rw [head] at order
        exact congrArg Except.ok order

/-- The traversals of the tree of the two networks are sorted. -/
theorem twoNetworks_sorted
    : ∃ (t : PatriciaTree Nat) (entries : List (Prefix × Nat)),
        run (treeStep fun _ => none) (newPatricia 128) twoNetworks = .ok t
        ∧ entries.Pairwise (fun e e' => e.1.key < e'.1.key)
        ∧ patriciaProcess (fun pfx d seen => seen ++ [(pfx, d)]) t []
          = .ok (entries.foldl (fun seen e => seen ++ [(e.1, some e.2)]) []) := by
  obtain ⟨t, _, entries, _, done, _, _, sorted, _, _, calls⟩ := traversals_sorted twoNetworks_fit
  exact ⟨t, entries, done, sorted, (calls _ _).1⟩

end Lixy
