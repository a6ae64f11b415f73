import Lixy.Patricia.Removal

/-! The searches of patricia.c that the map table does without: `patricia_search_exact`, and
`patricia_search_best2` where the given prefix itself does not count.
-/

namespace Lixy

open ByteStrings
open PatriciaNode
open LongestPrefix (best bestProper)

variable {α : Type}

/-- The `assert`s of patricia.c behind the operations of maptable.c. -/
inductive LibraryAssertion
  | prefixGiven    -- prefix
  | bitIsBitlen    -- node->bit == bitlen
  | bitIsOwn       -- node->bit == node->prefix->bitlen
  | glueIsEmpty    -- Xrn->data == NULL
  | referenced     -- prefix->ref_count > 0
  | noActiveNode   -- patricia->num_active_node == 0
deriving DecidableEq, Repr

/-- What ends a call of the library other than a return. -/
inductive LibraryFault
  | assertFailed (site : LibraryAssertion)
  | fault (fault : Fault)
deriving DecidableEq, Repr

/-- A call that ends its caller where it does not return. -/
def libraryCall {β : Type} (x : Except Fault β) : Except LibraryFault β := x.mapError .fault

theorem libraryCall_eq_ok {β : Type} {x : Except Fault β} {b : β}
    : libraryCall x = .ok b ↔ x = .ok b := by
  cases x <;> simp [libraryCall, Except.mapError]

-----------------------------------------------------------------------------------------
-- patricia_search_exact
-----------------------------------------------------------------------------------------

/-- `while (node->bit < bitlen)` -/
def exactDescend (addr : List Byte) (bitlen : Nat) : PatriciaNode α → List (Frame α) → Loc α
  | .null, path => ⟨.null, path⟩
  | .node a bit pfx data l r, path =>
      if bit < bitlen then
        if addrBit addr bit then
          exactDescend addr bitlen r (⟨a, bit, pfx, data, true, l⟩ :: path)
        else
          exactDescend addr bitlen l (⟨a, bit, pfx, data, false, r⟩ :: path)
      else
        ⟨.node a bit pfx data l r, path⟩

/-- `patricia_search_exact` -/
def patriciaSearchExact (patricia : PatriciaTree α) (pfx : Prefix)
    : Except LibraryFault (Option (Loc α)) :=
  if pfx.bitlen ≤ patricia.maxbits then
    let addr := pfx.add.toList
    let z := exactDescend addr pfx.bitlen patricia.head []
    match z.node with
    | .null => .ok none
    | .node _ _ none _ _ _ => .ok none
    | .node _ bit (some own) _ _ _ =>
        if bit > pfx.bitlen then
          .ok none
        else if bit ≠ pfx.bitlen then
          .error (.assertFailed .bitIsBitlen)
        else if bit ≠ own.bitlen then
          .error (.assertFailed .bitIsOwn)
        else if compWithMask own.add.toList addr pfx.bitlen then
          .ok (some z)
        else
          .ok none
  else
    .error (.fault (.assertFailed .bitlenFits))

/-- The descent follows the bits of the address. -/
theorem exactDescend_deeper {addr : List Byte} {bitlen a bit : Nat} {pfx : Option Prefix}
    {data : Option α} {l r : PatriciaNode α} (path : List (Frame α)) {b : Bool}
    (hb : bitAt addr bit = b) (deeper : bit < bitlen)
    : exactDescend addr bitlen (node a bit pfx data l r) path
      = exactDescend addr bitlen (side b l r) (⟨a, bit, pfx, data, b, side (!b) l r⟩ :: path) := by
  cases b <;> simp [exactDescend, deeper, hb, side]

/-- The descent stays in the tree and ends at nothing, or at a node that is no shorter than
the prefix; by induction on the subtree.
-/
theorem exactDescend_stops (addr : List Byte) (bitlen : Nat) {n : PatriciaNode α}
    {path : List (Frame α)} {req : List Bool} (hpath : PathOk path req) (hn : Hangs req n)
    : (exactDescend addr bitlen n path).head = plug n path
      ∧ ((exactDescend addr bitlen n path).node = null
        ∨ LocOk (exactDescend addr bitlen n path)
          ∧ ∃ a bit pfx data l r,
              (exactDescend addr bitlen n path).node = node a bit pfx data l r ∧ bitlen ≤ bit) := by
  induction n generalizing path req with
  | null => exact ⟨rfl, .inl rfl⟩
  | node a bit pfx data l r ihl ihr =>
      obtain ⟨k, below, hk⟩ := hn.rooted (by simp)
      by_cases deeper : bit < bitlen
      · have turn (b : Bool) : plug (side b l r) (⟨a, bit, pfx, data, b, side (!b) l r⟩ :: path)
            = plug (node a bit pfx data l r) path := by
          rw [plug, fill_side]
        cases hb : bitAt addr bit with
        | false =>
            rw [exactDescend_deeper path hb deeper, ← turn false]
            exact ihl (hpath.side below hk false) (hk.side false)
        | true =>
            rw [exactDescend_deeper path hb deeper, ← turn true]
            exact ihr (hpath.side below hk true) (hk.side true)
      · rw [exactDescend, if_neg deeper]
        exact ⟨rfl, .inr ⟨⟨req, k, hpath, below, hk⟩, _, _, _, _, _, _, rfl,
          Nat.le_of_not_lt deeper⟩⟩

/-- The descent ends at the entry of the address's leading bits if there is one. -/
theorem exactDescend_finds {addr : List Byte} {bitlen : Nat} {n : PatriciaNode α}
    (path : List (Frame α)) {req : List Bool} (hn : Hangs req n) {e : Prefix × α}
    (mem : e ∈ n.entries) (key : e.1.key = bits addr bitlen)
    : (exactDescend addr bitlen n path).Holds e := by
  induction n generalizing path req with
  | null => cases mem
  | node a bit pfx data l r ihl ihr =>
      obtain ⟨k, below, hk⟩ := hn.rooted (by simp)
      have long (b : Bool) (deep : e ∈ (side b l r).entries) : k ++ [b] <+: bits addr bitlen :=
        key ▸ (hk.side b).key_below deep
      have past (b : Bool) (deep : e ∈ (side b l r).entries) : bit < bitlen := by
        have le := (long b deep).length_le
        simp only [List.length_append, List.length_singleton, hk.1.keyLength, bits_length] at le
        exact le
      have turn (b : Bool) (deep : e ∈ (side b l r).entries) : bitAt addr bit = b :=
        hk.1.keyLength ▸ bitAt_of_append_prefix (long b deep)
      rcases (mem_entries_side true).mp mem with own | deep | deep
      · obtain ⟨here, there⟩ := mem_nodeEntry.mp own
        have length := congrArg List.length (hk.1.own e.1 here).1
        rw [key, bits_length, hk.1.keyLength] at length
        rw [exactDescend, if_neg (by omega)]
        exact ⟨a, bit, l, r, by rw [here, there]⟩
      · rw [exactDescend_deeper path (turn _ deep) (past _ deep)]
        exact ihr _ (hk.side true) deep
      · rw [exactDescend_deeper path (turn _ deep) (past _ deep)]
        exact ihl _ (hk.side false) deep

/-- On a well-formed tree `patricia_search_exact` returns the node of the entry under the
prefix's key, or NULL where there is none; no assertion fails.
-/
theorem patriciaSearchExact_spec {patricia : PatriciaTree α} {pfx : Prefix}
    (wf : WellFormed patricia.head) (fits : pfx.bitlen ≤ patricia.maxbits)
    : (patricia.head.store pfx.key = none ∧ patriciaSearchExact patricia pfx = .ok none)
      ∨ ∃ e z, patricia.head.store pfx.key = some e
        ∧ patriciaSearchExact patricia pfx = .ok (some z)
        ∧ z.Holds e ∧ LocOk z ∧ z.head = patricia.head := by
  have start : PathOk ([] : List (Frame α)) [] := rfl
  obtain ⟨head, stops⟩ := exactDescend_stops pfx.add.toList pfx.bitlen start wf
  have finds (e : Prefix × α) (stored : patricia.head.store pfx.key = some e) :=
    exactDescend_finds [] wf (wf.store_eq_some_iff.mp stored).1 (wf.store_eq_some_iff.mp stored).2
  unfold patriciaSearchExact
  rw [if_pos fits]
  dsimp only
  generalize exactDescend pfx.add.toList pfx.bitlen patricia.head [] = z at head stops finds
  have missing (other : ¬ ∃ e, z.Holds e ∧ e.1.key = pfx.key)
      : patricia.head.store pfx.key = none := by
    cases stored : patricia.head.store pfx.key with
    | none => rfl
    | some e => exact (other ⟨e, finds e stored, (wf.store_eq_some_iff.mp stored).2⟩).elim
  rcases stops with nothing | ⟨locOk, a, bit, npfx, data, l, r, node_eq, long⟩
  · left
    rw [nothing]
    refine ⟨missing ?_, rfl⟩
    rintro ⟨_, ⟨_, _, _, _, node_eq⟩, _⟩
    rw [nothing] at node_eq
    cases node_eq
  · rw [node_eq]
    obtain ⟨_, k, _, _, hn⟩ := id locOk
    rw [node_eq] at hn
    cases npfx with
    | none =>
        left
        refine ⟨missing ?_, rfl⟩
        rintro ⟨_, ⟨_, _, _, _, holds⟩, _⟩
        rw [node_eq] at holds
        cases holds
    | some own =>
        obtain ⟨key, carried⟩ := hn.1.own own rfl
        obtain ⟨d, rfl⟩ := Option.isSome_iff_exists.mp carried
        have holds : z.Holds (own, d) := ⟨a, bit, l, r, node_eq⟩
        have length : own.bitlen = bit := by
          rw [← own.key_length, key, hn.1.keyLength]
        have only {e : Prefix × α} (held : z.Holds e) : e.1 = own := by
          obtain ⟨_, _, _, _, held⟩ := held
          rw [node_eq] at held
          injection held with _ _ same
          exact (Option.some.inj same).symm
        dsimp only
        split
        · next longer =>
            left
            refine ⟨missing ?_, rfl⟩
            rintro ⟨e, held, same⟩
            have same := congrArg List.length same
            rw [only held, own.key_length, pfx.key_length] at same
            omega
        · next fitting =>
            rw [if_neg (by omega), if_neg (by omega)]
            have size : own.add.toList.length = pfx.add.toList.length := by simp
            split
            · next matched =>
                right
                rw [compWithMask_iff size] at matched
                have same : own.key = pfx.key := by
                  rw [Prefix.key, length, show bit = pfx.bitlen by omega]
                  exact matched
                refine ⟨(own, d), z, ?_, rfl, holds, locOk, head⟩
                have mem := holds.mem
                rw [head] at mem
                exact wf.store_eq_some_iff.mpr ⟨mem, same⟩
            · next differs =>
                left
                refine ⟨missing ?_, rfl⟩
                rintro ⟨e, held, same⟩
                rw [only held] at same
                refine differs ((compWithMask_iff size _).mpr ?_)
                rw [Prefix.key, length, show bit = pfx.bitlen by omega] at same
                exact same

-----------------------------------------------------------------------------------------
-- patricia_search_best2 without the prefix itself
-----------------------------------------------------------------------------------------

/-- What popping the stack finds when the node at which the descent ends is not pushed. -/
def properFrom (addr : List Byte) (bitlen : Nat) (n : PatriciaNode α) (path : List (Frame α))
    (stack : List (Loc α))
    : Option (Loc α) :=
  (searchDescend addr bitlen n path stack).2.find? (Loc.matches addr bitlen)

theorem properFrom_deeper {addr : List Byte} {bitlen a bit : Nat} {pfx : Option Prefix}
    {data : Option α} {l r : PatriciaNode α} (path : List (Frame α)) (stack : List (Loc α))
    {b : Bool} (hb : bitAt addr bit = b) (deeper : bit < bitlen)
    : properFrom addr bitlen (node a bit pfx data l r) path stack
      = properFrom addr bitlen (side b l r) (⟨a, bit, pfx, data, b, side (!b) l r⟩ :: path)
          (pushed pfx ⟨node a bit pfx data l r, path⟩ stack) := by
  cases b <;> simp [properFrom, searchDescend, deeper, hb, side, pushed]

/-- The prefix at a position is no longer than `n`. -/
def Loc.Short (n : Nat) (z : Loc α) : Prop :=
  ∀ a bit p data l r, z.node = PatriciaNode.node a bit (some p) data l r → p.bitlen ≤ n

/-- Among positions that are short enough one bit of the address more makes no difference. -/
theorem find_matches_succ {addr : Bytes 16} {n : Nat} {stack : List (Loc α)}
    (short : ∀ z ∈ stack, z.Short n)
    : stack.find? (Loc.matches addr.toList (n + 1)) = stack.find? (Loc.matches addr.toList n) := by
  induction stack with
  | nil => rfl
  | cons z rest ih =>
      have here : z.matches addr.toList (n + 1) = z.matches addr.toList n := by
        obtain ⟨m, path⟩ := z
        rcases m with _ | ⟨a, bit, _ | p, data, l, r⟩
        · rfl
        · rfl
        · have le : p.bitlen ≤ n := short _ List.mem_cons_self a bit p data l r rfl
          simp only [Loc.matches, le, Nat.le_succ_of_le le]
      rw [List.find?_cons, List.find?_cons, here,
        ih fun z mem => short z (List.mem_cons_of_mem _ mem)]

/-- A position below whose bit nothing shorter hangs is not matched by a shorter prefix. -/
theorem matches_too_long {addr : List Byte} {n : Nat} {z : Loc α} {a bit : Nat} {p : Prefix}
    {data : Option α} {l r : PatriciaNode α}
    (node_eq : z.node = PatriciaNode.node a bit (some p) data l r) (long : n < p.bitlen)
    : z.matches addr n = false := by
  simp only [Loc.matches, node_eq, Nat.not_le_of_lt long, decide_false, Bool.and_false]

/-- Without the prefix itself the search finds what it finds for one bit less with it: below a
node, by induction on the subtree.
-/
theorem properFrom_eq (addr : Bytes 16) (n : Nat) {m : PatriciaNode α} (path : List (Frame α))
    {stack : List (Loc α)} {req : List Bool} (hm : Hangs req m)
    (short : ∀ z ∈ stack, z.Short n)
    : properFrom addr.toList (n + 1) m path stack = searchFrom addr.toList n m path stack := by
  induction m generalizing path stack req with
  | null => exact find_matches_succ short
  | node a bit pfx data l r ihl ihr =>
      obtain ⟨k, below, hk⟩ := hm.rooted (by simp)
      have own (p : Prefix) (here : pfx = some p) : p.bitlen = bit := by
        rw [← p.key_length, (hk.1.own p here).1, hk.1.keyLength]
      have short' (le : bit ≤ n)
          : ∀ z ∈ pushed pfx ⟨node a bit pfx data l r, path⟩ stack, z.Short n := by
        intro z mem
        unfold pushed at mem
        split at mem
        · rcases List.mem_cons.mp mem with rfl | mem
          · rintro _ _ p _ _ _ ⟨⟩
            exact own p rfl ▸ le
          · exact short z mem
        · exact short z mem
      by_cases deeper : bit < n
      · cases hb : bitAt addr.toList bit with
        | false =>
            rw [properFrom_deeper path stack hb (by omega), searchFrom_deeper path stack hb deeper]
            exact ihl _ (hk.side false) (short' (by omega))
        | true =>
            rw [properFrom_deeper path stack hb (by omega), searchFrom_deeper path stack hb deeper]
            exact ihr _ (hk.side true) (short' (by omega))
      · rw [searchFrom_here path stack deeper]
        by_cases here : bit = n
        · -- the node itself is pushed, and what hangs below it is too long
          have ends (b : Bool)
              : properFrom addr.toList (n + 1) (side b l r)
                  (⟨a, bit, pfx, data, b, side (!b) l r⟩ :: path)
                  (pushed pfx ⟨node a bit pfx data l r, path⟩ stack)
                = (pushed pfx ⟨node a bit pfx data l r, path⟩ stack).find?
                    (Loc.matches addr.toList n) := by
            rw [← find_matches_succ (short' (by omega))]
            have hside := hk.side b
            cases child : side b l r with
            | null => rfl
            | node a' bit' pfx' data' l' r' =>
                rw [child] at hside
                obtain ⟨k', below', hk'⟩ := hside.rooted (by simp)
                have le := below'.length_le
                simp only [List.length_append, List.length_singleton, hk.1.keyLength,
                  hk'.1.keyLength] at le
                rw [properFrom, searchDescend, if_neg (by omega)]
          cases hb : bitAt addr.toList bit with
          | false => rw [properFrom_deeper path stack hb (by omega), ends]
          | true => rw [properFrom_deeper path stack hb (by omega), ends]
        · rw [properFrom, searchDescend, if_neg (by omega), find_matches_succ short]
          cases pfx with
          | none => rfl
          | some p =>
              have long : n < p.bitlen := by
                rw [own p rfl]
                omega
              have missed := @matches_too_long _ addr.toList n
                ⟨node a bit (some p) data l r, path⟩ _ _ _ _ _ _ rfl long
              simp only [pushed, Option.isSome_some, if_true, List.find?_cons, missed]

/-- On a well-formed tree `patricia_search_best2` without the prefix itself returns the node of
the longest entry that covers the prefix and is not under its own key.
-/
theorem patriciaSearchBest2_proper {patricia : PatriciaTree α} {pfx : Prefix}
    (wf : WellFormed patricia.head) (fits : pfx.bitlen ≤ patricia.maxbits)
    : (bestProper patricia.head.store pfx.key = none
        ∧ patriciaSearchBest2 patricia pfx false = .ok none)
      ∨ ∃ e z, bestProper patricia.head.store pfx.key = some (e.1.key, e)
        ∧ patriciaSearchBest2 patricia pfx false = .ok (some z)
        ∧ z.Holds e ∧ LocOk z ∧ z.head = patricia.head := by
  have search : patriciaSearchBest2 patricia pfx false
      = .ok (properFrom pfx.add.toList pfx.bitlen patricia.head [] []) := by
    simp [patriciaSearchBest2, fits, properFrom]
  rw [search]
  cases length : pfx.bitlen with
  | zero =>
      left
      have empty : pfx.key = [] := List.length_eq_zero_iff.mp (pfx.key_length.trans length)
      refine ⟨by rw [bestProper, if_pos empty], ?_⟩
      cases patricia.head <;> rfl
  | succ n =>
      let shorter : Prefix := { pfx with bitlen := n }
      have key : pfx.key.dropLast = shorter.key := by
        have covers : shorter.key <+: pfx.key := bits_prefix_of_le _ (length ▸ Nat.le_succ n)
        refine LongestPrefix.eq_of_covers pfx.key.dropLast_prefix covers ?_
        rw [List.length_dropLast, pfx.key_length, shorter.key_length, length]
        rfl
      have nonempty : pfx.key ≠ [] := by
        intro empty
        have := congrArg List.length empty
        rw [pfx.key_length, length] at this
        cases this
      rw [properFrom_eq pfx.add n [] wf (List.forall_mem_nil _), bestProper, if_neg nonempty, key]
      have fits' : shorter.bitlen ≤ patricia.maxbits := by
        change n ≤ _
        omega
      have spec := patriciaSearchBest_spec wf fits'
      rwa [patriciaSearchBest_eq fits'] at spec

end Lixy
