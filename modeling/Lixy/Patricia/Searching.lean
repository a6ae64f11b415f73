import Lixy.Patricia.WellFormed

/-! `patricia_search_best` finds the longest stored prefix of its query.
Witness of the whole module: the stack holds the covering nodes of the descended path,
longest on top, and nothing off that path can cover the query.
-/

namespace Lixy

open ByteStrings
open PatriciaNode
open LongestPrefix (best)

variable {α : Type}

/-- A position in a well-formed tree. -/
def LocOk (z : Loc α) : Prop :=
  ∃ req k, PathOk z.path req ∧ req <+: k ∧ Rooted k z.node

/-- The node at the position carries the entry `e`. -/
def Loc.Holds (z : Loc α) (e : Prefix × α) : Prop :=
  ∃ a bit l r, z.node = PatriciaNode.node a bit (some e.1) (some e.2) l r

/-- `e` is the longest entry among `stored` that covers the query. -/
structure LongestEntry (stored : List (Prefix × α)) (query : List Bool) (e : Prefix × α)
    : Prop where
  mem : e ∈ stored
  covers : e.1.key <+: query
  longest : ∀ e' ∈ stored, e'.1.key <+: query → e'.1.bitlen ≤ e.1.bitlen

theorem Loc.matches_iff {z : Loc α} {a bit : Nat} {p : Prefix} {data : Option α}
    {l r : PatriciaNode α} (node_eq : z.node = PatriciaNode.node a bit (some p) data l r)
    (addr : Bytes 16) (bitlen : Nat)
    : z.matches addr.toList bitlen = true ↔ p.key <+: bits addr.toList bitlen := by
  have len : p.add.toList.length = addr.toList.length := by simp
  simp only [Loc.matches, node_eq, Bool.and_eq_true, decide_eq_true_eq, Prefix.key,
    bits_prefix_iff, compWithMask_iff len]
  exact and_comm

/-- A key reaching past bit `k.length` of an address follows that bit. -/
theorem bitAt_of_append_prefix {addr : List Byte} {k : List Bool} {b : Bool} {n : Nat}
    (h : k ++ [b] <+: bits addr n)
    : bitAt addr k.length = b := by
  have le := h.length_le
  simp only [List.length_append, List.length_singleton, bits_length] at le
  have last := List.IsPrefix.getElem h (show k.length < (k ++ [b]).length by simp)
  rw [bits_getElem] at last
  simpa using last.symm

-----------------------------------------------------------------------------------------
-- The descent
-----------------------------------------------------------------------------------------

/-- The position pushed on the way down, if its node carries a prefix. -/
def pushed (pfx : Option Prefix) (z : Loc α) (stack : List (Loc α)) : List (Loc α) :=
  if pfx.isSome then z :: stack else stack

/-- What popping the stack finds after descending from `n`. -/
def searchFrom (addr : List Byte) (bitlen : Nat) (n : PatriciaNode α)
    (path : List (Frame α)) (stack : List (Loc α))
    : Option (Loc α) :=
  let (last, stack) := searchDescend addr bitlen n path stack
  (if last.hasPrefix then last :: stack else stack).find? (Loc.matches addr bitlen)

theorem searchFrom_deeper {addr : List Byte} {bitlen a bit : Nat} {pfx : Option Prefix}
    {data : Option α} {l r : PatriciaNode α} (path : List (Frame α)) (stack : List (Loc α))
    {b : Bool} (hb : bitAt addr bit = b) (deeper : bit < bitlen)
    : searchFrom addr bitlen (node a bit pfx data l r) path stack
      = searchFrom addr bitlen (side b l r) (⟨a, bit, pfx, data, b, side (!b) l r⟩ :: path)
          (pushed pfx ⟨node a bit pfx data l r, path⟩ stack) := by
  cases b <;> simp [searchFrom, searchDescend, deeper, hb, side, pushed]

theorem searchFrom_here {addr : List Byte} {bitlen a bit : Nat} {pfx : Option Prefix}
    {data : Option α} {l r : PatriciaNode α} (path : List (Frame α)) (stack : List (Loc α))
    (stop : ¬ bit < bitlen)
    : searchFrom addr bitlen (node a bit pfx data l r) path stack
      = (pushed pfx ⟨node a bit pfx data l r, path⟩ stack).find?
          (Loc.matches addr bitlen) := by
  cases pfx <;> simp [searchFrom, searchDescend, stop, pushed, Loc.hasPrefix]

/-- Popping a pushed node finds it exactly when its own entry covers the query. -/
theorem find_pushed {addr : Bytes 16} {bitlen a bit : Nat} {pfx : Option Prefix}
    {data : Option α} {l r : PatriciaNode α} (path : List (Frame α)) (stack : List (Loc α))
    {k : List Bool} {both : Prop} (own : NodeOk k bit pfx data both)
    : (∀ e ∈ nodeEntry pfx data, e.1.key <+: bits addr.toList bitlen
        → ∃ z, (pushed pfx ⟨node a bit pfx data l r, path⟩ stack).find?
              (Loc.matches addr.toList bitlen) = some z
            ∧ z.Holds e ∧ z = ⟨node a bit pfx data l r, path⟩)
      ∧ ((∀ e ∈ nodeEntry pfx data, ¬ e.1.key <+: bits addr.toList bitlen)
        → (pushed pfx ⟨node a bit pfx data l r, path⟩ stack).find?
              (Loc.matches addr.toList bitlen)
            = stack.find? (Loc.matches addr.toList bitlen)) := by
  cases pfx with
  | none => exact ⟨fun e he => by cases data <;> simp [nodeEntry] at he, fun _ => rfl⟩
  | some p =>
      obtain ⟨_, carried⟩ := own.own p rfl
      obtain ⟨d, rfl⟩ := Option.isSome_iff_exists.mp carried
      have found := @Loc.matches_iff _ ⟨node a bit (some p) (some d) l r, path⟩ a bit p
        (some d) l r rfl addr bitlen
      simp only [nodeEntry, List.mem_singleton, forall_eq, pushed, Option.isSome_some, if_true,
        List.find?_cons]
      constructor
      · intro covers
        rw [found.mpr covers]
        exact ⟨_, rfl, ⟨a, bit, l, r, rfl⟩, rfl⟩
      · intro uncovered
        rw [Bool.eq_false_iff.mpr (fun h => uncovered (found.mp h))]

/-- Below `n`, the search finds the longest covering entry if there is one, and else
what the stack already held.
-/
structure SearchesBelow (addr : Bytes 16) (bitlen : Nat) (n : PatriciaNode α)
    (path : List (Frame α)) (stack : List (Loc α))
    : Prop where
  finds : ∀ e, LongestEntry n.entries (bits addr.toList bitlen) e
    → ∃ z, searchFrom addr.toList bitlen n path stack = some z
        ∧ z.Holds e ∧ LocOk z ∧ z.head = plug n path
  falls : (∀ e ∈ n.entries, ¬ e.1.key <+: bits addr.toList bitlen)
    → searchFrom addr.toList bitlen n path stack = stack.find? (Loc.matches addr.toList bitlen)

/-- A node at or past the query's length stops the descent; everything below it is longer
than the query.
-/
theorem searchesBelow_here {addr : Bytes 16} {bitlen a bit : Nat} {pfx : Option Prefix}
    {data : Option α} {l r : PatriciaNode α} {path : List (Frame α)} {req k : List Bool}
    (stack : List (Loc α)) (hpath : PathOk path req) (below : req <+: k)
    (hk : Rooted k (node a bit pfx data l r)) (stop : ¬ bit < bitlen)
    : SearchesBelow addr bitlen (node a bit pfx data l r) path stack := by
  have here : LocOk ⟨node a bit pfx data l r, path⟩ := ⟨req, k, hpath, below, hk⟩
  obtain ⟨findOwn, findStack⟩ :=
    @find_pushed _ addr bitlen a bit pfx data l r path stack k _ hk.1
  rw [← searchFrom_here path stack stop] at findOwn findStack
  have children (b : Bool) : ∀ e ∈ (side b l r).entries, ¬ e.1.key <+: bits addr.toList bitlen := by
    intro e he covers
    have le := (((hk.side b).key_below he).trans covers).length_le
    simp only [List.length_append, List.length_singleton, hk.1.keyLength, bits_length] at le
    omega
  constructor
  · intro e he
    rcases (mem_entries_side true).mp he.mem with own | deep | deep
    · obtain ⟨z, found, holds, rfl⟩ := findOwn e own he.covers
      exact ⟨_, found, holds, here, rfl⟩
    · exact absurd he.covers (children _ e deep)
    · exact absurd he.covers (children _ e deep)
  · intro none
    exact findStack (fun e own => none e ((mem_entries_side true).mpr (Or.inl own)))

/-- A node before the query's length sends the search to the side of the query's next
bit: the other side holds no covering entry, and every entry of the taken side is longer
than the node's own.
-/
theorem searchesBelow_deeper {addr : Bytes 16} {bitlen a bit : Nat} {pfx : Option Prefix}
    {data : Option α} {l r : PatriciaNode α} {path : List (Frame α)} {req k : List Bool}
    {stack : List (Loc α)} {b : Bool} (hpath : PathOk path req) (below : req <+: k)
    (hk : Rooted k (node a bit pfx data l r)) (deeper : bit < bitlen)
    (hb : bitAt addr.toList bit = b)
    (taken : SearchesBelow addr bitlen (side b l r)
      (⟨a, bit, pfx, data, b, side (!b) l r⟩ :: path)
      (pushed pfx ⟨node a bit pfx data l r, path⟩ stack))
    : SearchesBelow addr bitlen (node a bit pfx data l r) path stack := by
  have here : LocOk ⟨node a bit pfx data l r, path⟩ := ⟨req, k, hpath, below, hk⟩
  obtain ⟨findOwn, findStack⟩ :=
    @find_pushed _ addr bitlen a bit pfx data l r path stack k _ hk.1
  have step :=
    @searchFrom_deeper _ addr.toList bitlen a bit pfx data l r path stack b hb deeper
  have other : ∀ e ∈ (side (!b) l r).entries, ¬ e.1.key <+: bits addr.toList bitlen := by
    intro e he covers
    have turn := bitAt_of_append_prefix (((hk.side (!b)).key_below he).trans covers)
    rw [hk.1.keyLength, hb] at turn
    cases b <;> cases turn
  have longer : ∀ e ∈ (side b l r).entries, ∀ e' ∈ nodeEntry pfx data,
      e'.1.bitlen < e.1.bitlen := by
    intro e he e' own
    have le := ((hk.side b).key_below he).length_le
    have mine := congrArg List.length (hk.1.own e'.1 (mem_nodeEntry.mp own).1).1
    simp only [List.length_append, List.length_singleton, Prefix.key_length] at le mine
    omega
  constructor
  · intro e he
    by_cases inTaken : ∃ e' ∈ (side b l r).entries, e'.1.key <+: bits addr.toList bitlen
    · obtain ⟨e', mem', covers'⟩ := inTaken
      have mem : e ∈ (side b l r).entries := by
        rcases (mem_entries_side b).mp he.mem with own | deep | deep
        · have le := he.longest e' ((mem_entries_side b).mpr (Or.inr (Or.inl mem'))) covers'
          have lt := longer e' mem' e own
          omega
        · exact deep
        · exact absurd he.covers (other e deep)
      obtain ⟨z, found, holds, ok, head⟩ := taken.finds e
        ⟨mem, he.covers, fun e'' mem'' covers'' =>
          he.longest e'' ((mem_entries_side b).mpr (Or.inr (Or.inl mem''))) covers''⟩
      exact ⟨z, by rw [step, found], holds, ok, by rw [head, plug, fill_side]⟩
    · have empty := taken.falls (fun e' mem' covers' => inTaken ⟨e', mem', covers'⟩)
      rw [← step] at empty
      rcases (mem_entries_side b).mp he.mem with own | deep | deep
      · obtain ⟨z, found, holds, rfl⟩ := findOwn e own he.covers
        exact ⟨_, by rw [empty, found], holds, here, rfl⟩
      · exact absurd ⟨e, deep, he.covers⟩ inTaken
      · exact absurd he.covers (other e deep)
  · intro none
    rw [step, taken.falls (fun e he => none e ((mem_entries_side b).mpr (Or.inr (Or.inl he))))]
    exact findStack (fun e own => none e ((mem_entries_side b).mpr (Or.inl own)))

/-- The search is right below every well-formed node, by induction on the subtree. -/
theorem searchesBelow (addr : Bytes 16) (bitlen : Nat) {n : PatriciaNode α}
    {path : List (Frame α)} {req : List Bool} (stack : List (Loc α))
    (hpath : PathOk path req) (hn : Hangs req n)
    : SearchesBelow addr bitlen n path stack := by
  induction n generalizing path req stack with
  | null => exact ⟨fun e he => absurd he.mem (by simp), fun _ => rfl⟩
  | node a bit pfx data l r ihl ihr =>
      obtain ⟨k, below, hk⟩ := hn.rooted (by simp)
      by_cases deeper : bit < bitlen
      · cases hb : bitAt addr.toList bit with
        | false =>
            exact searchesBelow_deeper hpath below hk deeper hb
              (ihl _ (hpath.side below hk false) (hk.side false))
        | true =>
            exact searchesBelow_deeper hpath below hk deeper hb
              (ihr _ (hpath.side below hk true) (hk.side true))
      · exact searchesBelow_here stack hpath below hk deeper

-----------------------------------------------------------------------------------------
-- The whole search
-----------------------------------------------------------------------------------------

theorem patriciaSearchBest_eq {patricia : PatriciaTree α} {pfx : Prefix}
    (fits : pfx.bitlen ≤ patricia.maxbits)
    : patriciaSearchBest patricia pfx
      = .ok (searchFrom pfx.add.toList pfx.bitlen patricia.head [] []) := by
  simp [patriciaSearchBest, patriciaSearchBest2, fits, searchFrom]

/-- The longest covering entries are the best matches of the stored keys. -/
theorem longestEntry_iff_best {n : PatriciaNode α} (wf : WellFormed n) {query : List Bool}
    {e : Prefix × α}
    : LongestEntry n.entries query e ↔ best n.store query = some (e.1.key, e) := by
  rw [LongestPrefix.best_eq_some_iff]
  constructor
  · intro h
    refine ⟨h.covers, wf.store_eq_some_iff.mpr ⟨h.mem, rfl⟩, ?_⟩
    intro other covers stored
    obtain ⟨e', he'⟩ := Option.isSome_iff_exists.mp stored
    obtain ⟨mem', rfl⟩ := wf.store_eq_some_iff.mp he'
    simpa using h.longest e' mem' covers
  · intro h
    refine ⟨(wf.store_eq_some_iff.mp h.stored).1, h.covers, ?_⟩
    intro e' mem' covers'
    have stored := wf.store_eq_some_iff.mpr ⟨mem', rfl⟩
    simpa using h.longest e'.1.key covers' (by simp [stored])

theorem best_eq_none_iff_entries {n : PatriciaNode α} (wf : WellFormed n) {query : List Bool}
    : best n.store query = none ↔ ∀ e ∈ n.entries, ¬ e.1.key <+: query := by
  rw [LongestPrefix.best_eq_none_iff]
  constructor
  · intro h e he covers
    exact wf.store_eq_none_iff.mp (h _ covers) e he rfl
  · intro h key covers
    exact wf.store_eq_none_iff.mpr (fun e he same => h e he (same ▸ covers))

/-- On a well-formed tree `patricia_search_best` returns the node of the best match of
the query among the stored keys, or NULL when nothing stored covers it.
-/
theorem patriciaSearchBest_spec {patricia : PatriciaTree α} {pfx : Prefix}
    (wf : WellFormed patricia.head) (fits : pfx.bitlen ≤ patricia.maxbits)
    : (best patricia.head.store pfx.key = none
        ∧ patriciaSearchBest patricia pfx = .ok none)
      ∨ ∃ e z, best patricia.head.store pfx.key = some (e.1.key, e)
        ∧ patriciaSearchBest patricia pfx = .ok (some z)
        ∧ z.Holds e ∧ LocOk z ∧ z.head = patricia.head := by
  have start : PathOk ([] : List (Frame α)) [] := rfl
  have search := searchesBelow pfx.add pfx.bitlen [] start wf
  rw [patriciaSearchBest_eq fits]
  cases found : best patricia.head.store pfx.key with
  | none =>
      refine Or.inl ⟨rfl, ?_⟩
      rw [search.falls ((best_eq_none_iff_entries wf).mp found)]
      rfl
  | some hit =>
      obtain ⟨key, e⟩ := hit
      have stored := (LongestPrefix.best_eq_some_iff.mp found).stored
      obtain ⟨_, rfl⟩ := wf.store_eq_some_iff.mp stored
      obtain ⟨z, hz, holds, ok, head⟩ := search.finds e ((longestEntry_iff_best wf).mpr found)
      exact Or.inr ⟨e, z, rfl, by rw [hz], holds, ok, head⟩

/-- A query longer than the tree's keys fails the search's assertion. -/
theorem patriciaSearchBest_too_long {patricia : PatriciaTree α} {pfx : Prefix}
    (past : ¬ pfx.bitlen ≤ patricia.maxbits)
    : patriciaSearchBest patricia pfx = .error (.assertFailed .bitlenFits) := by
  simp [patriciaSearchBest, patriciaSearchBest2, past]

end Lixy
