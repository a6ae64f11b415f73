import Lixy.Foundation.LongestPrefix
import Lixy.Patricia.Trees

/-! Well-formed patricia trees: every node stands for a key that extends its parent's,
glue has two children, and the stored entries form a longest-prefix store.
-/

namespace Lixy

open ByteStrings
open LongestPrefix (Store)

variable {α : Type}

-----------------------------------------------------------------------------------------
-- What a tree stores
-----------------------------------------------------------------------------------------

/-- The prefix and data of a node that carries both. -/
def nodeEntry : Option Prefix → Option α → List (Prefix × α)
  | some p, some d => [(p, d)]
  | _, _ => []

namespace PatriciaNode

/-- What `f` reads off every node, in the order a walk meets them. -/
def collect {γ : Type} (f : Nat → Option Prefix → Option α → List γ) : PatriciaNode α → List γ
  | null => []
  | node addr _ pfx data l r => f addr pfx data ++ (collect f l ++ collect f r)

/-- The stored entries. -/
def entries (n : PatriciaNode α) : List (Prefix × α) := n.collect (fun _ => nodeEntry)

/-- The addresses of the nodes. -/
def addrs (n : PatriciaNode α) : List Nat := n.collect (fun addr _ _ => [addr])

/-- What a node with data carries it under. -/
def nodeCarrier (pfx : Option Prefix) (data : Option α) : List (Option Prefix × α) :=
  data.toList.map (fun d => (pfx, d))

/-- Every node that carries data, with or without a prefix. -/
def carriers (n : PatriciaNode α) : List (Option Prefix × α) := n.collect (fun _ => nodeCarrier)

@[simp]
theorem entries_null : entries (null : PatriciaNode α) = [] := rfl

theorem entries_node (a bit : Nat) (pfx : Option Prefix) (data : Option α)
    (l r : PatriciaNode α)
    : (node a bit pfx data l r).entries = nodeEntry pfx data ++ (l.entries ++ r.entries) := rfl

@[simp]
theorem addrs_null : addrs (null : PatriciaNode α) = [] := rfl

theorem addrs_node (a bit : Nat) (pfx : Option Prefix) (data : Option α)
    (l r : PatriciaNode α)
    : (node a bit pfx data l r).addrs = a :: (l.addrs ++ r.addrs) := rfl

@[simp]
theorem carriers_null : carriers (null : PatriciaNode α) = [] := rfl

theorem carriers_node (a bit : Nat) (pfx : Option Prefix) (data : Option α)
    (l r : PatriciaNode α)
    : (node a bit pfx data l r).carriers
      = nodeCarrier pfx data ++ (l.carriers ++ r.carriers) := rfl

/-- The child on one side; the right one is on the side of bit 1. -/
def side (b : Bool) (l r : PatriciaNode α) : PatriciaNode α := if b then r else l

/-- The entry stored under each key. -/
def store (n : PatriciaNode α) : Store Bool (Prefix × α) :=
  fun key => n.entries.find? (fun e => decide (e.1.key = key))

theorem mem_entries_side {a bit : Nat} {pfx : Option Prefix} {data : Option α}
    {l r : PatriciaNode α} {e : Prefix × α} (b : Bool)
    : e ∈ (node a bit pfx data l r).entries
      ↔ e ∈ nodeEntry pfx data ∨ e ∈ (side b l r).entries ∨ e ∈ (side (!b) l r).entries := by
  cases b <;> simp [entries_node, side, or_comm]

@[simp]
theorem isNull_eq_true {n : PatriciaNode α} : n.isNull = true ↔ n = null := by
  cases n <;> simp [isNull]

@[simp]
theorem isNull_eq_false {n : PatriciaNode α} : n.isNull = false ↔ n ≠ null := by
  cases n <;> simp [isNull]

end PatriciaNode

open PatriciaNode

/-- What `f` reads off the nodes in and beside a path, the left out child apart. -/
def pathCollect {γ : Type} (f : Nat → Option Prefix → Option α → List γ)
    : List (Frame α) → List γ
  | [] => []
  | fr :: path =>
      f fr.addr fr.pfx fr.data ++ fr.sibling.collect f ++ pathCollect f path

/-- The entries stored in and beside a path. -/
def pathEntries (path : List (Frame α)) : List (Prefix × α) :=
  pathCollect (fun _ => nodeEntry) path

theorem pathEntries_cons (fr : Frame α) (path : List (Frame α))
    : pathEntries (fr :: path)
      = nodeEntry fr.pfx fr.data ++ fr.sibling.entries ++ pathEntries path := rfl

/-- Filling a frame adds what the child holds to what the frame itself holds. -/
theorem fill_collect {γ : Type} (f : Nat → Option Prefix → Option α → List γ) (fr : Frame α)
    (n : PatriciaNode α)
    : ((fr.fill n).collect f).Perm
        (n.collect f ++ (f fr.addr fr.pfx fr.data ++ fr.sibling.collect f)) := by
  unfold Frame.fill
  split
  · simpa only [collect, List.append_assoc]
      using @List.perm_append_comm _ (f fr.addr fr.pfx fr.data ++ fr.sibling.collect f)
        (n.collect f)
  · simp only [collect]
    exact List.perm_append_comm_assoc _ _ _

/-- A tree holds what a position and the path above it hold, by induction on the path. -/
theorem plug_collect {γ : Type} (f : Nat → Option Prefix → Option α → List γ)
    (n : PatriciaNode α) (path : List (Frame α))
    : ((plug n path).collect f).Perm (n.collect f ++ pathCollect f path) := by
  induction path generalizing n with
  | nil => simp [plug, pathCollect]
  | cons fr path ih =>
      refine (ih (fr.fill n)).trans ?_
      rw [pathCollect, ← List.append_assoc]
      exact (fill_collect f fr n).append_right _

-----------------------------------------------------------------------------------------
-- Well-formed nodes
-----------------------------------------------------------------------------------------

/-- What a node with key `k` satisfies apart from its children. `bare` tells that both
children are present. A node without a prefix is glue, with the one exception that a
prefix of an unknown family leaves behind: data without a prefix at bit 0.
-/
structure NodeOk (k : List Bool) (bit : Nat) (pfx : Option Prefix) (data : Option α)
    (bothChildren : Prop) : Prop where
  keyLength : k.length = bit
  bound : bit ≤ 128
  own : ∀ p, pfx = some p → p.key = k ∧ data.isSome
  glue : pfx = none → (bit = 0 ∧ data.isSome) ∨ (data = none ∧ bothChildren)

/-- The subtree stands for key `k` and is well formed below it. -/
def Rooted : List Bool → PatriciaNode α → Prop
  | _, null => False
  | k, node _ bit pfx data l r =>
      NodeOk k bit pfx data (l ≠ null ∧ r ≠ null)
      ∧ (l = null ∨ ∃ kl, k ++ [false] <+: kl ∧ Rooted kl l)
      ∧ (r = null ∨ ∃ kr, k ++ [true] <+: kr ∧ Rooted kr r)

/-- An absent subtree, or one whose key extends `req`. -/
def Hangs (req : List Bool) (n : PatriciaNode α) : Prop :=
  n = null ∨ ∃ k, req <+: k ∧ Rooted k n

/-- A well-formed tree. -/
abbrev WellFormed (n : PatriciaNode α) : Prop := Hangs [] n

/-- The frames above a position are well formed around any subtree extending `req`. -/
def PathOk : List (Frame α) → List Bool → Prop
  | [], req => req = []
  | f :: path, req =>
      ∃ k, req = k ++ [f.right]
        ∧ NodeOk k f.bit f.pfx f.data (f.sibling ≠ null)
        ∧ Hangs (k ++ [!f.right]) f.sibling
        ∧ ∃ above, above <+: k ∧ PathOk path above

theorem Rooted.ne_null {k : List Bool} {n : PatriciaNode α} (h : Rooted k n) : n ≠ null := by
  rintro rfl
  exact h

theorem Rooted.exists_node {k : List Bool} {n : PatriciaNode α} (h : Rooted k n)
    : ∃ a bit pfx data l r, n = node a bit pfx data l r := by
  cases n with
  | null => exact h.elim
  | node a bit pfx data l r => exact ⟨a, bit, pfx, data, l, r, rfl⟩

theorem Hangs.rooted {req : List Bool} {n : PatriciaNode α} (h : Hangs req n) (ne : n ≠ null)
    : ∃ k, req <+: k ∧ Rooted k n :=
  h.resolve_left ne

/-- The conditions on a node do not grow when more children are present. -/
theorem NodeOk.imp {k : List Bool} {bit : Nat} {pfx : Option Prefix} {data : Option α}
    {P Q : Prop} (h : NodeOk k bit pfx data P) (imp : P → Q)
    : NodeOk k bit pfx data Q :=
  ⟨h.keyLength, h.bound, h.own, fun none => (h.glue none).imp_right (And.imp_right imp)⟩

/-- Filling a well-formed frame gives a well-formed subtree at the frame's key. -/
theorem rooted_fill {f : Frame α} {k kn : List Bool} {n : PatriciaNode α}
    (node : NodeOk k f.bit f.pfx f.data (f.sibling ≠ null))
    (sibling : Hangs (k ++ [!f.right]) f.sibling)
    (child : Rooted kn n) (below : k ++ [f.right] <+: kn)
    : Rooted k (f.fill n) := by
  unfold Frame.fill
  split
  · next right =>
      simp only [right, Bool.not_true] at sibling below
      exact ⟨node.imp (fun ne => ⟨ne, child.ne_null⟩), sibling, Or.inr ⟨kn, below, child⟩⟩
  · next left =>
      simp only [left, Bool.not_false] at sibling below
      exact ⟨node.imp (fun ne => ⟨child.ne_null, ne⟩), Or.inr ⟨kn, below, child⟩, sibling⟩

/-- Plugging a suitable subtree into a well-formed path gives a well-formed tree. -/
theorem PathOk.plug {path : List (Frame α)} {req k : List Bool} {n : PatriciaNode α}
    (h : PathOk path req) (below : req <+: k) (hn : Rooted k n)
    : WellFormed (Lixy.plug n path) := by
  induction path generalizing req k n with
  | nil => exact Or.inr ⟨k, List.nil_prefix, hn⟩
  | cons f path ih =>
      obtain ⟨kf, rfl, node, sibling, above, hab, hpath⟩ := h
      exact ih hpath hab (rooted_fill node sibling hn below)

/-- Stepping from a well-formed node to either side. -/
theorem PathOk.side {a bit : Nat} {pfx : Option Prefix} {data : Option α}
    {l r : PatriciaNode α} {path : List (Frame α)} {req k : List Bool}
    (h : PathOk path req) (below : req <+: k) (hn : Rooted k (node a bit pfx data l r))
    (b : Bool)
    : PathOk (⟨a, bit, pfx, data, b, PatriciaNode.side (!b) l r⟩ :: path) (k ++ [b]) := by
  cases b
  · exact ⟨k, rfl, hn.1.imp And.right, hn.2.2, req, below, h⟩
  · exact ⟨k, rfl, hn.1.imp And.left, hn.2.1, req, below, h⟩

theorem Rooted.side {k : List Bool} {a bit : Nat} {pfx : Option Prefix} {data : Option α}
    {l r : PatriciaNode α} (hn : Rooted k (node a bit pfx data l r)) (b : Bool)
    : Hangs (k ++ [b]) (PatriciaNode.side b l r) := by
  cases b
  · exact hn.2.1
  · exact hn.2.2

/-- A node's frame around one side fills back to the node. -/
@[simp]
theorem fill_side (a bit : Nat) (pfx : Option Prefix) (data : Option α)
    (l r : PatriciaNode α) (b : Bool)
    : Frame.fill ⟨a, bit, pfx, data, b, PatriciaNode.side (!b) l r⟩ (PatriciaNode.side b l r)
      = node a bit pfx data l r := by
  cases b <;> rfl

-----------------------------------------------------------------------------------------
-- Entries and their keys
-----------------------------------------------------------------------------------------

theorem mem_nodeEntry {pfx : Option Prefix} {data : Option α} {e : Prefix × α}
    : e ∈ nodeEntry pfx data ↔ pfx = some e.1 ∧ data = some e.2 := by
  cases pfx <;> cases data <;> simp [nodeEntry, Prod.ext_iff, eq_comm]

/-- Every entry below a key extends it, by induction on the subtree. -/
theorem Rooted.key_below {k : List Bool} {n : PatriciaNode α} (h : Rooted k n)
    {e : Prefix × α} (he : e ∈ n.entries)
    : k <+: e.1.key := by
  induction n generalizing k with
  | null => exact h.elim
  | node a bit pfx data l r ihl ihr =>
      obtain ⟨node, hl, hr⟩ := h
      simp only [entries_node, List.mem_append, mem_nodeEntry] at he
      rcases he with ⟨own, _⟩ | he | he
      · rw [(node.own e.1 own).1]
      · rcases hl with rfl | ⟨kl, below, hl⟩
        · simp at he
        · exact (List.prefix_append k [false]).trans (below.trans (ihl hl he))
      · rcases hr with rfl | ⟨kr, below, hr⟩
        · simp at he
        · exact (List.prefix_append k [true]).trans (below.trans (ihr hr he))

theorem Hangs.key_below {req : List Bool} {n : PatriciaNode α} (h : Hangs req n)
    {e : Prefix × α} (he : e ∈ n.entries)
    : req <+: e.1.key := by
  rcases h with rfl | ⟨k, below, hn⟩
  · simp at he
  · exact below.trans (hn.key_below he)

/-- Stored prefixes fit into the tree's keys, by induction on the subtree. -/
theorem Rooted.bitlen_le {k : List Bool} {n : PatriciaNode α} (h : Rooted k n)
    {e : Prefix × α} (he : e ∈ n.entries)
    : e.1.bitlen ≤ 128 := by
  induction n generalizing k with
  | null => exact h.elim
  | node a bit pfx data l r ihl ihr =>
      obtain ⟨node, hl, hr⟩ := h
      simp only [entries_node, List.mem_append, mem_nodeEntry] at he
      rcases he with ⟨own, _⟩ | he | he
      · rw [← e.1.key_length, (node.own e.1 own).1, node.keyLength]
        exact node.bound
      · rcases hl with rfl | ⟨kl, _, hl⟩
        · simp at he
        · exact ihl hl he
      · rcases hr with rfl | ⟨kr, _, hr⟩
        · simp at he
        · exact ihr hr he

theorem Hangs.bitlen_le {req : List Bool} {n : PatriciaNode α} (h : Hangs req n)
    {e : Prefix × α} (he : e ∈ n.entries)
    : e.1.bitlen ≤ 128 := by
  rcases h with rfl | ⟨k, _, hn⟩
  · simp at he
  · exact hn.bitlen_le he

/-- No key extends another in two directions. -/
theorem not_both_sides {k q : List Bool} {b : Bool} (h : k ++ [b] <+: q)
    : ¬ k ++ [!b] <+: q := by
  intro h'
  have same := LongestPrefix.eq_of_covers h h' (by simp)
  simp only [List.append_cancel_left_eq, List.cons.injEq, and_true] at same
  cases b <;> cases same

/-- A key is not an extension of itself. -/
theorem not_append_prefix {k : List Bool} {b : Bool} : ¬ k ++ [b] <+: k := by
  intro h
  have le := h.length_le
  simp only [List.length_append, List.length_singleton] at le
  omega

/-- The keys stored below one node are distinct: its own is shorter than those below it,
and the two sides differ in the node's bit.
-/
theorem Rooted.keys_nodup {k : List Bool} {n : PatriciaNode α} (h : Rooted k n)
    : (n.entries.map (fun e => e.1.key)).Nodup := by
  induction n generalizing k with
  | null => simp
  | node a bit pfx data l r ihl ihr =>
      obtain ⟨node, hl, hr⟩ := h
      have left : Hangs (k ++ [false]) l := hl
      have right : Hangs (k ++ [true]) r := hr
      simp only [entries_node, List.map_append, List.nodup_append]
      refine ⟨?_, ⟨?_, ?_, ?_⟩, ?_⟩
      · cases pfx <;> cases data <;> simp [nodeEntry]
      · rcases hl with rfl | ⟨kl, _, hl⟩
        · simp
        · exact ihl hl
      · rcases hr with rfl | ⟨kr, _, hr⟩
        · simp
        · exact ihr hr
      · simp only [List.mem_map]
        rintro _ ⟨e, he, rfl⟩ _ ⟨e', he', rfl⟩ same
        have other := right.key_below he'
        rw [← same] at other
        exact not_both_sides (left.key_below he) other
      · simp only [List.mem_map, List.mem_append]
        rintro _ ⟨e, he, rfl⟩ key below same
        have own : key = k := by rw [← same, (node.own e.1 (mem_nodeEntry.mp he).1).1]
        rcases below with ⟨e', he', rfl⟩ | ⟨e', he', rfl⟩
        · have deeper := left.key_below he'
          exact not_append_prefix (own ▸ deeper)
        · have deeper := right.key_below he'
          exact not_append_prefix (own ▸ deeper)

theorem Hangs.keys_nodup {req : List Bool} {n : PatriciaNode α} (h : Hangs req n)
    : (n.entries.map (fun e => e.1.key)).Nodup := by
  rcases h with rfl | ⟨k, _, hn⟩
  · simp
  · exact hn.keys_nodup

/-- In a well-formed tree a key determines its entry. -/
theorem Hangs.entry_unique {req : List Bool} {n : PatriciaNode α} (h : Hangs req n)
    {e e' : Prefix × α} (he : e ∈ n.entries) (he' : e' ∈ n.entries)
    (same : e.1.key = e'.1.key)
    : e = e' :=
  List.inj_on_of_nodup_map h.keys_nodup he he' same

/-- A well-formed tree stores under each key the entry that has it. -/
theorem Hangs.store_eq_some_iff {req : List Bool} {n : PatriciaNode α} (h : Hangs req n)
    {key : List Bool} {e : Prefix × α}
    : n.store key = some e ↔ e ∈ n.entries ∧ e.1.key = key := by
  unfold store
  constructor
  · intro found
    exact ⟨List.mem_of_find?_eq_some found, by simpa using List.find?_some found⟩
  · rintro ⟨he, rfl⟩
    cases found : n.entries.find? (fun e' => decide (e'.1.key = e.1.key)) with
    | none =>
        rw [List.find?_eq_none] at found
        exact absurd (decide_eq_true rfl) (found e he)
    | some e' =>
        have key : e'.1.key = e.1.key := by simpa using List.find?_some found
        rw [h.entry_unique (List.mem_of_find?_eq_some found) he key]

theorem Hangs.store_eq_none_iff {req : List Bool} {n : PatriciaNode α} (_ : Hangs req n)
    {key : List Bool}
    : n.store key = none ↔ ∀ e ∈ n.entries, e.1.key ≠ key := by
  simp [store, List.find?_eq_none]

/-- A tree that holds a new entry and otherwise the old ones of other keys stores the old
store with that entry inserted.
-/
theorem store_eq_insert {new old : PatriciaNode α} (wfNew : WellFormed new)
    (wfOld : WellFormed old) {e : Prefix × α} (mem : e ∈ new.entries)
    (same : ∀ other, other.1.key ≠ e.1.key → (other ∈ new.entries ↔ other ∈ old.entries))
    : new.store = LongestPrefix.insert old.store e.1.key e := by
  funext key
  by_cases eq : key = e.1.key
  · subst eq
    rw [LongestPrefix.insert_self, wfNew.store_eq_some_iff]
    exact ⟨mem, rfl⟩
  · rw [LongestPrefix.insert_of_ne _ _ eq]
    ext other
    rw [wfNew.store_eq_some_iff, wfOld.store_eq_some_iff]
    constructor
    · rintro ⟨h, rfl⟩
      exact ⟨(same other eq).mp h, rfl⟩
    · rintro ⟨h, rfl⟩
      exact ⟨(same other eq).mpr h, rfl⟩

/-- A tree that lost its entry of one key and no other stores the old store with that key
erased.
-/
theorem store_eq_erase {new old : PatriciaNode α} (wfNew : WellFormed new)
    (wfOld : WellFormed old) {key : List Bool} (gone : ∀ e ∈ new.entries, e.1.key ≠ key)
    (same : ∀ other, other.1.key ≠ key → (other ∈ new.entries ↔ other ∈ old.entries))
    : new.store = LongestPrefix.erase old.store key := by
  funext probe
  by_cases eq : probe = key
  · subst eq
    rw [LongestPrefix.erase_self, wfNew.store_eq_none_iff]
    exact gone
  · rw [LongestPrefix.erase_of_ne _ eq]
    ext other
    rw [wfNew.store_eq_some_iff, wfOld.store_eq_some_iff]
    constructor
    · rintro ⟨h, rfl⟩
      exact ⟨(same other eq).mp h, rfl⟩
    · rintro ⟨h, rfl⟩
      exact ⟨(same other eq).mpr h, rfl⟩

/-- Entries beside a path lie outside the subtree that hangs in its hole. -/
theorem PathOk.not_prefix {path : List (Frame α)} {req : List Bool} (h : PathOk path req)
    {e : Prefix × α} (he : e ∈ pathEntries path)
    : ¬ req <+: e.1.key := by
  induction path generalizing req with
  | nil => simp [pathEntries, pathCollect] at he
  | cons f path ih =>
      obtain ⟨k, rfl, node, sibling, above, hab, hpath⟩ := h
      simp only [pathEntries_cons, List.mem_append, mem_nodeEntry] at he
      rcases he with (⟨own, _⟩ | he) | he
      · rw [(node.own e.1 own).1]
        exact not_append_prefix
      · intro both
        exact not_both_sides both (sibling.key_below he)
      · intro below
        exact ih hpath he (hab.trans ((List.prefix_append k [f.right]).trans below))

/-- No entry besides a node's own has the node's key. -/
theorem PathOk.others_ne {path : List (Frame α)} {req k : List Bool} {a bit : Nat}
    {pfx : Option Prefix} {data : Option α} {l r : PatriciaNode α} (h : PathOk path req)
    (below : req <+: k) (hn : Rooted k (node a bit pfx data l r)) {e : Prefix × α}
    (he : e ∈ l.entries ++ r.entries ++ pathEntries path)
    : e.1.key ≠ k := by
  rintro rfl
  simp only [List.mem_append] at he
  rcases he with (he | he) | he
  · exact not_append_prefix ((hn.side false).key_below he)
  · exact not_append_prefix ((hn.side true).key_below he)
  · exact h.not_prefix he below

/-- A well-formed subtree below the head stores at least one entry: its leaves carry
prefixes, and only a node at bit 0 may be left without.
-/
theorem Rooted.exists_entry {k : List Bool} {n : PatriciaNode α} (h : Rooted k n)
    (deep : k ≠ [])
    : ∃ e, e ∈ n.entries := by
  induction n generalizing k with
  | null => exact h.elim
  | node a bit pfx data l r ihl _ =>
      obtain ⟨node, hl, _⟩ := h
      cases pfx with
      | some p =>
          obtain ⟨_, some⟩ := node.own p rfl
          obtain ⟨d, rfl⟩ := Option.isSome_iff_exists.mp some
          exact ⟨(p, d), by simp [entries_node, nodeEntry]⟩
      | none =>
          rcases node.glue rfl with ⟨zero, _⟩ | ⟨_, left, _⟩
          · exact absurd (List.length_eq_zero_iff.mp (node.keyLength.trans zero)) deep
          · obtain ⟨kl, below, hl⟩ := hl.resolve_left left
            have deeper : kl ≠ [] := by
              rintro rfl
              have le := below.length_le
              simp at le
            obtain ⟨e, he⟩ := ihl hl deeper
            exact ⟨e, by simp [entries_node, he]⟩

end Lixy
