import Lixy.Patricia.Insertion

/-! Data under no prefix. A prefix of an unknown family leaves its data on a head without
prefix, and such a head makes later lookups fail their assertions. Which, is said here exactly.
-/

namespace Lixy

open ByteStrings
open PatriciaNode
open LongestPrefix (Store)

variable {α : Type}

/-- The data that the head carries without a prefix. -/
def PatriciaNode.stray : PatriciaNode α → Option α
  | node _ _ none data _ _ => data
  | _ => none

/-- What a tree carries: the entries by their keys, and the data under no prefix. -/
@[ext]
structure Outline (α : Type) where
  store : Store Bool (Prefix × α)
  stray : Option α

/-- The outline of a tree. -/
def PatriciaNode.outline (n : PatriciaNode α) : Outline α where
  store := n.store
  stray := n.stray

/-- A lookup of the key meets no assertion about a node without prefix: there is none with
data, or the key has bits and its first one leads to an entry.
-/
def Outline.Admits (o : Outline α) (key : List Bool) : Prop :=
  o.stray = none ∨ key ≠ [] ∧ ∃ below, key.take 1 <+: below ∧ (o.store below).isSome

-----------------------------------------------------------------------------------------
-- Only the head
-----------------------------------------------------------------------------------------

/-- A node below the head carries no data without a prefix. -/
theorem Rooted.stray_none {k : List Bool} {n : PatriciaNode α} (h : Rooted k n) (deep : k ≠ [])
    : n.stray = none := by
  cases n with
  | null => exact h.elim
  | node a bit pfx data l r =>
      cases pfx with
      | some p => rfl
      | none =>
          rcases h.1.glue rfl with ⟨zero, _⟩ | ⟨empty, _⟩
          · exact absurd (List.length_eq_zero_iff.mp (h.1.keyLength.trans zero)) deep
          · exact empty

/-- A position whose node carries data without a prefix is the head. -/
theorem LocOk.stray_head {z : Loc α} (h : LocOk z) {a bit : Nat} {d : α} {l r : PatriciaNode α}
    (node_eq : z.node = PatriciaNode.node a bit none (some d) l r)
    : z.path = [] ∧ bit = 0 := by
  obtain ⟨n, path⟩ := z
  obtain rfl : n = node a bit none (some d) l r := node_eq
  obtain ⟨req, k, hpath, below, hn⟩ := h
  rcases hn.1.glue rfl with ⟨zero, _⟩ | ⟨empty, _⟩
  · obtain rfl : k = [] := List.length_eq_zero_iff.mp (hn.1.keyLength.trans zero)
    obtain rfl : req = [] := List.prefix_nil.mp below
    cases path with
    | nil => exact ⟨rfl, zero⟩
    | cons f path =>
        obtain ⟨kf, last, _⟩ := hpath
        simp at last
  · cases empty

/-- What is carried without a prefix, the head carries. -/
theorem Rooted.carrier_stray {k : List Bool} {n : PatriciaNode α} (h : Rooted k n) {d : α}
    (mem : (none, d) ∈ n.carriers)
    : n.stray = some d := by
  induction n generalizing k with
  | null => cases mem
  | node a bit pfx data l r ihl ihr =>
      obtain ⟨node, hl, hr⟩ := h
      have deep {b : Bool} {kc : List Bool} (below : k ++ [b] <+: kc) : kc ≠ [] := by
        rintro rfl
        simp at below
      rw [carriers_node, List.mem_append, List.mem_append] at mem
      rcases mem with own | mem | mem
      · simp only [nodeCarrier, List.mem_map, Option.mem_toList, Prod.mk.injEq] at own
        obtain ⟨_, rfl, rfl, rfl⟩ := own
        rfl
      · rcases hl with rfl | ⟨kl, below, hl⟩
        · cases mem
        · cases (hl.stray_none (deep below)).symm.trans (ihl hl mem)
      · rcases hr with rfl | ⟨kr, below, hr⟩
        · cases mem
        · cases (hr.stray_none (deep below)).symm.trans (ihr hr mem)

theorem mem_carriers_of_stray {n : PatriciaNode α} {d : α} (h : n.stray = some d)
    : (none, d) ∈ n.carriers := by
  cases n with
  | null => cases h
  | node a bit pfx data l r =>
      cases pfx with
      | some p => cases h
      | none =>
          obtain rfl : data = some d := h
          simp [carriers_node, nodeCarrier]

theorem mem_carriers_none {n : PatriciaNode α} (wf : WellFormed n) {d : α}
    : (none, d) ∈ n.carriers ↔ n.stray = some d := by
  refine ⟨fun mem => ?_, mem_carriers_of_stray⟩
  rcases wf with rfl | ⟨k, _, hn⟩
  · cases mem
  · exact hn.carrier_stray mem

/-- There is no orphan exactly when the head carries nothing without a prefix. -/
theorem noOrphans_iff {n : PatriciaNode α} (wf : WellFormed n) : NoOrphans n ↔ n.stray = none := by
  constructor
  · intro h
    by_contra some
    obtain ⟨d, stray⟩ := Option.ne_none_iff_exists'.mp some
    exact absurd (h _ (mem_carriers_of_stray stray)) (by simp)
  · rintro none ⟨pfx, d⟩ mem
    cases pfx with
    | some p => rfl
    | none => cases none.symm.trans ((mem_carriers_none wf).mp mem)

-----------------------------------------------------------------------------------------
-- Lookups that fail no assertion
-----------------------------------------------------------------------------------------

/-- A node at bit 128 has no children: a child's key would be longer than an address. -/
theorem Rooted.leaf {k : List Bool} {a bit : Nat} {pfx : Option Prefix} {data : Option α}
    {l r : PatriciaNode α} (h : Rooted k (node a bit pfx data l r)) (past : ¬ bit < 128)
    (b : Bool)
    : PatriciaNode.side b l r = null := by
  by_contra child
  obtain ⟨kc, below, hkc⟩ := (h.side b).rooted child
  have le := below.length_le
  have bound : kc.length ≤ 128 := by
    cases hc : PatriciaNode.side b l r with
    | null => exact absurd hc child
    | node _ _ _ _ _ _ =>
        rw [hc] at hkc
        rw [hkc.1.keyLength]
        exact hkc.1.bound
  simp only [List.length_append, List.length_singleton, h.1.keyLength] at le
  omega

/-- The descent turns at every frame to the side of the address's bit there, and stops at
a node with a prefix long enough or where the next child is missing. `n` may be any
well-formed subtree. By induction on it.
-/
theorem lookupDescend_follows (addr : List Byte) (bitlen : Nat) {n : PatriciaNode α}
    {k : List Bool} (hn : Rooted k n) {path : List (Frame α)}
    (follows : ∀ f ∈ path, f.right = bitAt addr f.bit)
    : (∀ f ∈ (lookupDescend addr bitlen 128 n path).path, f.right = bitAt addr f.bit)
      ∧ ∃ a bit pfx data l r,
          (lookupDescend addr bitlen 128 n path).node = node a bit pfx data l r
          ∧ ((¬ bit < bitlen ∧ pfx.isSome) ∨ side (bitAt addr bit) l r = null) := by
  induction n generalizing k path with
  | null => exact hn.elim
  | node a bit pfx data l r ihl ihr =>
      have down (b : Bool) (child : side b l r ≠ null) (turn : bitAt addr bit = b)
          : (∃ kc, Rooted kc (side b l r))
            ∧ ∀ f ∈ (⟨a, bit, pfx, data, b, side (!b) l r⟩ : Frame α) :: path,
                f.right = bitAt addr f.bit := by
        obtain ⟨kc, _, hkc⟩ := (hn.side b).rooted child
        refine ⟨⟨kc, hkc⟩, ?_⟩
        intro f hf
        rcases List.mem_cons.mp hf with rfl | hf
        · exact turn.symm
        · exact follows f hf
      rw [lookupDescend]
      simp only [addrBit_eq]
      split
      · next go =>
          split
          · next turn =>
              split
              · next missing =>
                  refine ⟨follows, a, bit, pfx, data, l, r, rfl, Or.inr ?_⟩
                  rw [turn.2]
                  exact isNull_eq_true.mp missing
              · next child =>
                  obtain ⟨⟨kc, hkc⟩, hf⟩ := down true (by simpa [side] using child) turn.2
                  exact ihr hkc hf
          · next turn =>
              split
              · next missing =>
                  refine ⟨follows, a, bit, pfx, data, l, r, rfl, Or.inr ?_⟩
                  by_cases inside : bit < 128
                  · rw [show bitAt addr bit = false by simpa [inside] using turn]
                    exact isNull_eq_true.mp missing
                  · exact hn.leaf inside _
              · next child =>
                  have present : side false l r ≠ null := by simpa [side] using child
                  have inside : bit < 128 := by
                    by_contra past
                    exact present (hn.leaf past false)
                  obtain ⟨⟨kc, hkc⟩, hf⟩ := down false present (by simpa [inside] using turn)
                  exact ihl hkc hf
      · next stop =>
          refine ⟨follows, a, bit, pfx, data, l, r, rfl, Or.inl ?_⟩
          simpa [not_or, Option.isSome_iff_ne_none] using stop

/-- The way up either stays where it began or ends at a frame of the path. -/
theorem climb_origin (differ : Nat) {n : PatriciaNode α} {path : List (Frame α)}
    {req k : List Bool} (hpath : PathOk path req) (below : req <+: k)
    : climb differ n path = ⟨n, path⟩
      ∨ ∃ f ∈ path, (∃ child, (climb differ n path).node = f.fill child)
          ∧ ∃ kf, kf.length = f.bit ∧ kf ++ [f.right] <+: k := by
  induction path generalizing n req k with
  | nil => exact Or.inl rfl
  | cons f path ih =>
      obtain ⟨kf, rfl, node, sibling, above, hab, habove⟩ := id hpath
      rw [climb]
      split
      · right
        rcases ih (n := f.fill n) (k := kf) habove hab with same | ⟨g, hg, filled, kg, len, hk⟩
        · exact ⟨f, by simp, ⟨n, by rw [same]⟩, kf, node.keyLength, below⟩
        · exact ⟨g, List.mem_cons_of_mem _ hg, filled, kg, len,
            hk.trans ((List.prefix_append kf [f.right]).trans below)⟩
      · exact Or.inl rfl

/-- Behind the climb nothing fails when a node standing for the prefix has a prefix or no
data, and the place of a new child is free.
-/
theorem patriciaAttach_total {t : PatriciaTree α} {pfx : Prefix} {testAddr : List Byte}
    {differ : Nat} {z : Loc α} {a bit : Nat} {npfx : Option Prefix} {data : Option α}
    {l r : PatriciaNode α} (node_eq : z.node = PatriciaNode.node a bit npfx data l r)
    (maxbits : t.maxbits = 128) (short : pfx.bitlen ≤ 128) (le : differ ≤ pfx.bitlen)
    (empty : differ = pfx.bitlen → bit = pfx.bitlen → npfx = none → data = none)
    (free : bit = differ → differ < pfx.bitlen
      → side (bitAt pfx.add.toList bit) l r = null)
    : ∃ result, patriciaAttach t pfx testAddr differ z = .ok result := by
  simp only [patriciaAttach, node_eq, addrBit_eq, maxbits]
  split
  · next both =>
      cases npfx with
      | some p => exact ⟨_, rfl⟩
      | none => simp [empty both.1 both.2 rfl]
  · next notBoth =>
      split
      · next here =>
          have part : differ < pfx.bitlen := by omega
          have inside : bit < 128 := by omega
          have null := free here part
          cases turn : bitAt pfx.add.toList bit with
          | false =>
              rw [turn] at null
              simp only [side, Bool.false_eq_true, if_false] at null
              simp [null]
          | true =>
              rw [turn] at null
              simp only [side, if_true] at null
              simp [null, inside]
      · split
        · split <;> exact ⟨_, rfl⟩
        · exact ⟨_, rfl⟩

/-- The first bit of a key. -/
theorem Prefix.key_take_one {pfx : Prefix} (some : pfx.key ≠ [])
    : pfx.key.take 1 = [bitAt pfx.add.toList 0] := by
  have length := pfx.key_length ▸ List.length_pos_iff.mpr some
  exact bits_take _ (show 1 ≤ pfx.bitlen from length)

/-- A side of the head is there exactly when an entry begins with its bit. -/
theorem Rooted.entry_side {a bit : Nat} {data : Option α} {l r : PatriciaNode α}
    (hn : Rooted [] (node a bit none data l r)) (b : Bool)
    : (∃ below, [b] <+: below ∧ ((node a bit none data l r).store below).isSome)
      ↔ PatriciaNode.side b l r ≠ null := by
  have wf : WellFormed (node a bit none data l r) := Or.inr ⟨[], List.nil_prefix, hn⟩
  constructor
  · rintro ⟨below, begins, stored⟩ absent
    obtain ⟨e, found⟩ := Option.isSome_iff_exists.mp stored
    obtain ⟨mem, rfl⟩ := wf.store_eq_some_iff.mp found
    rcases (mem_entries_side b).mp mem with own | here | other
    · cases (mem_nodeEntry.mp own).1
    · rw [absent] at here
      cases here
    · exact not_both_sides (k := []) begins ((hn.side (!b)).key_below other)
  · intro present
    obtain ⟨kc, begins, hc⟩ := (hn.side b).rooted present
    have deep : kc ≠ [] := by
      rintro rfl
      simp at begins
    obtain ⟨e, mem⟩ := hc.exists_entry deep
    refine ⟨e.1.key, begins.trans (hc.key_below mem), ?_⟩
    rw [wf.store_eq_some_iff.mpr ⟨(mem_entries_side b).mpr (Or.inr (Or.inl mem)), rfl⟩]
    rfl

/-- The head of a well-formed tree that carries data without a prefix. -/
theorem Hangs.stray_head {n : PatriciaNode α} (wf : WellFormed n) {d : α}
    (stray : n.stray = some d)
    : ∃ a l r, n = node a 0 none (some d) l r ∧ Rooted [] n := by
  cases n with
  | null => cases stray
  | node a bit pfx data l r =>
      cases pfx with
      | some p => cases stray
      | none =>
          obtain rfl : data = some d := stray
          obtain ⟨k, _, hk⟩ := wf.rooted nofun
          obtain ⟨_, rfl⟩ := @LocOk.stray_head _ ⟨_, []⟩ ⟨[], k, rfl, List.nil_prefix, hk⟩ _ _ _ _ _ rfl
          obtain rfl : k = [] := List.length_eq_zero_iff.mp hk.1.keyLength
          exact ⟨a, l, r, rfl, hk⟩

section

variable {t : PatriciaTree α} {pfx : Prefix}

/-- Where the tree admits the prefix, a node without a prefix has the child that the address
leads to.
-/
theorem LocOk.side_of_admits {z : Loc α} (ok : LocOk z) {a bit : Nat} {data : Option α}
    {l r : PatriciaNode α} (node_eq : z.node = node a bit none data l r)
    (admits : z.head.outline.Admits pfx.key)
    : side (bitAt pfx.add.toList bit) l r ≠ null := by
  obtain ⟨req, ks, _, _, hs⟩ := id ok
  rw [node_eq] at hs
  rcases hs.1.glue rfl with ⟨_, carries⟩ | ⟨_, left, right⟩
  · obtain ⟨d, rfl⟩ := Option.isSome_iff_exists.mp carries
    obtain ⟨top, rfl⟩ := ok.stray_head node_eq
    have head : z.head = node a 0 none (some d) l r := by
      rw [Loc.head, top, node_eq]
      rfl
    rw [head] at admits
    obtain rfl : ks = [] := List.length_eq_zero_iff.mp hs.1.keyLength
    rcases admits with none | ⟨bits, entry⟩
    · cases none
    · rw [Prefix.key_take_one bits] at entry
      exact (Rooted.entry_side hs _).mp entry
  · cases bitAt pfx.add.toList bit
    · exact left
    · exact right

/-- Where the tree admits the prefix, a node standing for it that has no prefix has no data. -/
theorem LocOk.data_of_admits {z : Loc α} (ok : LocOk z) {a bit : Nat} {data : Option α}
    {l r : PatriciaNode α} (node_eq : z.node = node a bit none data l r) (here : bit = pfx.bitlen)
    (admits : z.head.outline.Admits pfx.key)
    : data = none := by
  by_contra carries
  obtain ⟨d, rfl⟩ := Option.ne_none_iff_exists'.mp carries
  obtain ⟨above, rfl⟩ := ok.stray_head node_eq
  have stray : z.head.stray = some d := by
    rw [Loc.head, above, node_eq]
    rfl
  rcases admits with none | ⟨bits, _⟩
  · cases none.symm.trans stray
  · exact bits (List.length_eq_zero_iff.mp (pfx.key_length.trans here.symm))

/-- A climb from the stop ends at a free place for the rest of the prefix: it stays where the next
child is missing, or the stop's key would agree with the prefix at the bit where they differ.
-/
theorem climb_free {z : Loc α} (ok : LocOk z) {test : Prefix} {a bit differ : Nat}
    {data : Option α} {l r : PatriciaNode α}
    (node_eq : z.node = node a bit (some test) data l r)
    (follows : ∀ f ∈ z.path, f.right = bitAt pfx.add.toList f.bit)
    (stops : ¬ bit < pfx.bitlen ∨ side (bitAt pfx.add.toList bit) l r = null)
    (differs : differ
      = differBit pfx.add.toList test.add.toList (if bit < pfx.bitlen then bit else pfx.bitlen))
    {a' bit' : Nat} {pfx' : Option Prefix} {data' : Option α} {l' r' : PatriciaNode α}
    (top_eq : (climb differ z.node z.path).node = node a' bit' pfx' data' l' r')
    (here : bit' = differ) (part : differ < pfx.bitlen)
    : side (bitAt pfx.add.toList bit') l' r' = null := by
  obtain ⟨req, ks, hpath, below, hs⟩ := ok
  rw [node_eq] at hs
  rcases climb_origin differ hpath below (n := z.node) with same | ⟨f, hf, ⟨child, filled⟩, kf,
    size, turned⟩
  · rw [same, node_eq] at top_eq
    obtain ⟨rfl, rfl, rfl, rfl, rfl, rfl⟩ := PatriciaNode.node.inj top_eq
    exact stops.resolve_left (by omega)
  · exfalso
    have bit_eq : f.bit = differ := by
      rw [← here]
      rw [filled] at top_eq
      unfold Frame.fill at top_eq
      split at top_eq <;> exact (PatriciaNode.node.inj top_eq).2.1
    have own : test.key = ks := (hs.1.own test rfl).1
    rw [← own] at turned
    have deep := turned.length_le
    have turn := bitAt_of_append_prefix turned
    obtain ⟨_, _, other⟩ := differBit_spec pfx.add.toList test.add.toList
      (if bit < pfx.bitlen then bit else pfx.bitlen)
    rw [← differs] at other
    refine other ?_ ?_
    · simp only [List.length_append, List.length_singleton, own, hs.1.keyLength] at deep
      split <;> omega
    · rw [← bit_eq, ← follows f hf, ← turn, size]

/-- `patricia_lookup` of a prefix that a well-formed tree admits fails no assertion. -/
theorem patriciaLookup_of_admits (wf : WellFormed t.head) (maxbits : t.maxbits = 128)
    (short : pfx.bitlen ≤ 128) (admits : t.head.outline.Admits pfx.key)
    : ∃ result, patriciaLookup t pfx = .ok result := by
  rw [patriciaLookup, if_pos (maxbits.symm ▸ short)]
  split
  · exact ⟨_, rfl⟩
  · next nonempty =>
      obtain ⟨k, _, hk⟩ := wf.rooted (by simpa using nonempty)
      have start : LocOk ⟨t.head, []⟩ := ⟨[], k, rfl, List.nil_prefix, hk⟩
      obtain ⟨stopOk, stopHead⟩ := lookupDescend_locOk pfx.add.toList pfx.bitlen 128 start
      obtain ⟨follows, a, bit, npfx, data, l, r, node_eq, stops⟩ :=
        lookupDescend_follows pfx.add.toList pfx.bitlen hk (List.forall_mem_nil _)
      dsimp only
      rw [maxbits]
      generalize lookupDescend pfx.add.toList pfx.bitlen 128 t.head [] = z at *
      have admitsHere : z.head.outline.Admits pfx.key := by rwa [stopHead]
      cases npfx with
      | none =>
          exact absurd (stops.resolve_left (by simp)) (stopOk.side_of_admits node_eq admitsHere)
      | some test =>
          obtain ⟨common, top, key, len, head, junction⟩ :=
            @climb_junction _ pfx test a bit data l r z stopOk node_eq
          have lePfx := junction.inPfx.length_le
          rw [Prefix.key_length] at lePfx
          have topOk : LocOk (climb common.length z.node z.path) :=
            ⟨top, key, junction.path, junction.top.trans junction.inKey, junction.sub⟩
          obtain ⟨a', bit', npfx', data', l', r', top_eq⟩ := junction.sub.exists_node
          have empty (here : bit' = pfx.bitlen) (bare : npfx' = none) : data' = none := by
            rw [bare] at top_eq
            exact topOk.data_of_admits top_eq here (by rwa [head])
          have free (here : bit' = common.length) (part : common.length < pfx.bitlen)
              : side (bitAt pfx.add.toList bit') l' r' = null :=
            climb_free stopOk node_eq follows (stops.imp_left And.left) len top_eq here part
          rw [node_eq] at top_eq
          simp only [node_eq, ← len]
          exact patriciaAttach_total top_eq maxbits short lePfx (fun _ => empty) free

/-- What `patricia_lookup` goes through for, a well-formed tree admits. -/
theorem admits_of_patriciaLookup {result : PatriciaTree α × Loc α} (wf : WellFormed t.head)
    (maxbits : t.maxbits = 128) (done : patriciaLookup t pfx = .ok result)
    : pfx.bitlen ≤ 128 ∧ t.head.outline.Admits pfx.key := by
  have short : pfx.bitlen ≤ 128 := by
    by_contra long
    rw [patriciaLookup, if_neg (by rwa [maxbits])] at done
    cases done
  refine ⟨short, or_iff_not_imp_left.mpr fun carries => ?_⟩
  obtain ⟨d, stray⟩ := Option.ne_none_iff_exists'.mp carries
  obtain ⟨a, l, r, head, rooted⟩ := wf.stray_head stray
  rw [patriciaLookup, if_pos (maxbits.symm ▸ short), if_neg (by rw [head]; simp [isNull])] at done
  dsimp only at done
  have start : LocOk ⟨t.head, []⟩ := ⟨[], [], rfl, List.nil_prefix, rooted⟩
  obtain ⟨stopOk, stopHead⟩ := lookupDescend_locOk pfx.add.toList pfx.bitlen t.maxbits start
  have present : side (bitAt pfx.add.toList 0) l r ≠ null := by
    -- else the way down ends at the head, which has no prefix
    intro missing
    have stop : lookupDescend pfx.add.toList pfx.bitlen t.maxbits t.head [] = ⟨t.head, []⟩ := by
      rw [head, lookupDescend, maxbits]
      cases turn : bitAt pfx.add.toList 0 <;> simp_all [side, addrBit_eq]
    rw [stop, head] at done
    cases done
  have some : pfx.key ≠ [] := by
    -- else the way up ends at the head, which carries data
    intro empty
    have zero : pfx.bitlen = 0 := by rw [← pfx.key_length, empty, List.length_nil]
    split at done
    · cases done
    · cases done
    · next node_eq =>
        obtain ⟨common, top, key, len, same, junction⟩ := climb_junction stopOk node_eq
        rw [← len] at done
        have none := List.prefix_nil.mp (empty ▸ junction.inPfx)
        subst none
        obtain rfl := List.prefix_nil.mp junction.top
        have path := junction.path
        generalize climb [].length _ _ = stop at *
        obtain ⟨n, above⟩ := stop
        cases above with
        | cons f above =>
            obtain ⟨kf, last, _⟩ := path
            simp at last
        | nil =>
            obtain rfl : n = node a 0 none (some d) l r := (same.trans stopHead).trans head
            simp [patriciaAttach, zero] at done
  refine ⟨some, ?_⟩
  rw [Prefix.key_take_one some, head]
  exact (Rooted.entry_side (head ▸ rooted) _).mpr present

/-- On a well-formed tree `patricia_lookup` goes through exactly for the prefixes of at most
128 bits that the tree admits.
-/
theorem patriciaLookup_total_iff (wf : WellFormed t.head) (maxbits : t.maxbits = 128)
    : (∃ result, patriciaLookup t pfx = .ok result)
      ↔ pfx.bitlen ≤ 128 ∧ t.head.outline.Admits pfx.key :=
  ⟨fun ⟨_, done⟩ => admits_of_patriciaLookup wf maxbits done,
    fun ⟨short, admits⟩ => patriciaLookup_of_admits wf maxbits short admits⟩

/-- `patricia_lookup` of a prefix of at most 128 bits fails no assertion on a well-formed
tree without orphans.
-/
theorem patriciaLookup_total (wf : WellFormed t.head) (maxbits : t.maxbits = 128)
    (noOrphans : NoOrphans t.head) (short : pfx.bitlen ≤ 128)
    : ∃ result, patriciaLookup t pfx = .ok result :=
  patriciaLookup_of_admits wf maxbits short (Or.inl ((noOrphans_iff wf).mp noOrphans))

end

-----------------------------------------------------------------------------------------
-- Data that a lookup leaves without a prefix
-----------------------------------------------------------------------------------------

/-- Trees with the same carriers without a prefix have the same stray. -/
theorem stray_congr {n n' : PatriciaNode α} (wf : WellFormed n) (wf' : WellFormed n')
    (same : ∀ d, (none, d) ∈ n.carriers ↔ (none, d) ∈ n'.carriers)
    : n.stray = n'.stray := by
  ext d
  rw [← mem_carriers_none wf, ← mem_carriers_none wf']
  exact same d

/-- Replacing the data of an entry leaves the stray. -/
theorem LocOk.setData_stray {z : Loc α} (h : LocOk z) {e : Prefix × α} (holds : z.Holds e) (d : α)
    : (z.setData d).head.stray = z.head.stray := by
  refine stray_congr (h.setData holds d).wellFormed h.wellFormed fun x => ?_
  obtain ⟨a, bit, l, r, node_eq⟩ := holds
  have node_eq' : (z.setData d).node = PatriciaNode.node a bit (some e.1) (some d) l r := by
    simp [Loc.setData, node_eq, PatriciaNode.setData]
  rw [carriers, (head_collect_of_node _ node_eq').mem_iff, carriers,
    (head_collect_of_node _ node_eq).mem_iff]
  simp [nodeCarrier, Loc.setData]

/-- Storing data leaves it without a prefix exactly when the prefix has no copy and its key
was not stored before.
-/
theorem patriciaLookup_stray {before after : PatriciaTree α} {pfx : Prefix} {z : Loc α}
    (ok : TreeOk before) (storable : pfx.Storable)
    (done : patriciaLookup before pfx = .ok (after, z)) (d : α)
    : (z.setData d).head.stray
      = if (refPrefix pfx).isSome ∨ (before.head.store pfx.key).isSome then
          before.head.stray
        else
          some d := by
  rcases patriciaLookup_spec ok.wf ok.maxbits storable done with found | fresh
  · obtain ⟨rfl, head, locOk, e, holds, key⟩ := found
    have stored : after.head.store pfx.key = some e := by
      rw [ok.wf.store_eq_some_iff, ← head]
      exact ⟨holds.mem, key⟩
    rw [if_pos (Or.inr (by rw [stored]; rfl)), locOk.setData_stray holds, head]
  · have absent : before.head.store pfx.key = none :=
      ok.wf.store_eq_none_iff.mpr (fresh.empty storable d)
    have wf' := (fresh.locOk d).wellFormed
    have members (c : Option Prefix × α) : c ∈ (z.setData d).head.carriers
        ↔ c = (refPrefix pfx, d) ∨ c ∈ before.head.carriers := by
      rw [PatriciaNode.carriers, (fresh.held nodeCarrier rfl d).mem_iff, List.mem_append]
      simp [nodeCarrier, PatriciaNode.carriers]
    rw [absent]
    cases copied : refPrefix pfx with
    | some copy =>
        simp only [Option.isSome_some, true_or, if_true]
        refine stray_congr wf' ok.wf fun x => ?_
        rw [members, copied]
        simp
    | none =>
        rw [if_neg (by simp), ← mem_carriers_none wf', members, copied]
        exact Or.inl rfl

/-- So it leaves an orphan exactly then. -/
theorem patriciaLookup_noOrphans {before after : PatriciaTree α} {pfx : Prefix} {z : Loc α}
    (ok : TreeOk before) (storable : pfx.Storable)
    (done : patriciaLookup before pfx = .ok (after, z)) (d : α)
    (noOrphans : NoOrphans before.head)
    : NoOrphans (z.setData d).head
      ↔ (refPrefix pfx).isSome ∨ (before.head.store pfx.key).isSome := by
  have wf' := (patriciaLookup_setData ok storable done d).1.wf
  rw [noOrphans_iff wf', patriciaLookup_stray ok storable done d]
  split
  · next kept => exact iff_of_true ((noOrphans_iff ok.wf).mp noOrphans) kept
  · next left => exact iff_of_false nofun left

end Lixy
