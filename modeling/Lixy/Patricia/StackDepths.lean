import Lixy.Patricia.Walks

/-! The arrays of `PATRICIA_MAXBITS + 1` node pointers that patricia.c walks and searches with:
no walk and no search of a well-formed tree writes behind one.
Witness of the whole module: the nodes on a stack hang from nodes of decreasing bits.
-/

namespace Lixy

open ByteStrings
open PatriciaNode

variable {σ τ α : Type}

/-- `PATRICIA_MAXBITS` -/
abbrev patriciaMaxbits : Nat := 128

/-- `node->bit` -/
def PatriciaNode.bit : PatriciaNode α → Nat
  | null => 0
  | node _ bit _ _ _ _ => bit

-----------------------------------------------------------------------------------------
-- Stairs
-----------------------------------------------------------------------------------------

/-- The nodes, topmost first, hang from nodes of decreasing bits below the bound. -/
def Stairs : Nat → List (PatriciaNode α) → Prop
  | _, [] => True
  | bound, n :: rest => ∃ c < bound, c < n.bit ∧ Stairs c rest

theorem Stairs.mono {low high : Nat} {todo : List (PatriciaNode α)} (h : Stairs low todo)
    (le : low ≤ high)
    : Stairs high todo := by
  cases todo with
  | nil => trivial
  | cons n rest =>
      obtain ⟨c, lt, rest⟩ := h
      exact ⟨c, Nat.lt_of_lt_of_le lt le, rest⟩

/-- There is room for one node a bit. -/
theorem Stairs.length_le {bound : Nat} {todo : List (PatriciaNode α)} (h : Stairs bound todo)
    : todo.length ≤ bound := by
  induction todo generalizing bound with
  | nil => exact Nat.zero_le _
  | cons n rest ih =>
      obtain ⟨c, lt, _, below⟩ := h
      exact Nat.le_trans (Nat.succ_le_succ (ih below)) lt

/-- The node that comes next is deeper than what the nodes on the stack hang from. -/
def StairsFrom : List (PatriciaNode α) → Prop
  | [] => True
  | n :: rest => Stairs n.bit rest

theorem Stairs.from {bound : Nat} {todo : List (PatriciaNode α)} (h : Stairs bound todo)
    : StairsFrom todo := by
  cases todo with
  | nil => trivial
  | cons n rest =>
      obtain ⟨c, _, deeper, below⟩ := h
      exact below.mono (Nat.le_of_lt deeper)

/-- A node of a well-formed tree is well formed. -/
theorem Hangs.within {req : List Bool} {t n : PatriciaNode α} (h : Hangs req t)
    (within : Within n t)
    : ∃ k, Rooted k n := by
  induction t generalizing req with
  | null => exact within.elim
  | node a bit pfx data l r ihl ihr =>
      obtain ⟨k, _, rooted⟩ := h.rooted (by simp)
      rcases within with rfl | inl | inr
      · exact ⟨k, rooted⟩
      · exact ihl (rooted.side false) inl
      · exact ihr (rooted.side true) inr

/-- A node hangs deeper than the bit of the node above it. -/
theorem Rooted.bit_lt {k : List Bool} {a bit : Nat} {pfx : Option Prefix} {data : Option α}
    {l r : PatriciaNode α} (h : Rooted k (node a bit pfx data l r)) (b : Bool)
    (there : PatriciaNode.side b l r ≠ null)
    : bit < (PatriciaNode.side b l r).bit := by
  obtain ⟨k', below, rooted⟩ := (h.side b).rooted there
  obtain ⟨a', bit', pfx', data', l', r', node_eq⟩ := rooted.exists_node
  rw [node_eq] at rooted ⊢
  have le := below.length_le
  rw [List.length_append, List.length_singleton, h.1.keyLength, rooted.1.keyLength] at le
  exact le

/-- A node gives way to its children. -/
theorem Rooted.stairs {k : List Bool} {a bit : Nat} {pfx : Option Prefix} {data : Option α}
    {l r : PatriciaNode α} {rest : List (PatriciaNode α)}
    (h : Rooted k (node a bit pfx data l r)) (stairs : Stairs bit rest)
    : StairsFrom (children l r ++ rest) := by
  have left : l ≠ null → bit < l.bit := Rooted.bit_lt h false
  have right : r ≠ null → bit < r.bit := Rooted.bit_lt h true
  cases l with
  | null =>
      cases r with
      | null => exact stairs.from
      | node => exact stairs.mono (Nat.le_of_lt (right (by simp)))
  | node =>
      cases r with
      | null => exact stairs.mono (Nat.le_of_lt (left (by simp)))
      | node => exact ⟨bit, left (by simp), right (by simp), stairs⟩

-----------------------------------------------------------------------------------------
-- Walks
-----------------------------------------------------------------------------------------

section

variable (tree : σ → PatriciaNode α) (body : σ → Loc α → Except Fault (σ × Bool))

/-- The states that a walk from the head passes through. -/
inductive WalkReaches (st : σ) : Walk σ → Prop
  | start : WalkReaches st { st, rn := (tree st).ptr, stack := [], freedReads := [] }
  | next {w w' : Walk σ} {a : Nat} (before : WalkReaches st w) (rn : w.rn = some a)
      (done : walkStep tree body w a = .ok w')
      : WalkReaches st w'

end

variable {tree : σ → PatriciaNode α} {body : σ → Loc α → Except Fault (σ × Bool)}
  {Inv : σ → Prop} {stops frees : PatriciaNode α → Bool} {abs : σ → τ}
  {visit : τ → PatriciaNode α → τ}

/-- What is to be met in preorder tells which subtrees are pending. -/
theorem preorder_injective {left right : List (PatriciaNode α)} (hl : ∀ n ∈ left, n ≠ null)
    (hr : ∀ n ∈ right, n ≠ null)
    (same : left.flatMap (preorder stops) = right.flatMap (preorder stops))
    : left = right := by
  induction left generalizing right with
  | nil =>
      cases right with
      | nil => rfl
      | cons n rest =>
          cases n with
          | null => exact (hr null List.mem_cons_self rfl).elim
          | node => cases same
  | cons n rest ih =>
      cases n with
      | null => exact (hl null List.mem_cons_self rfl).elim
      | node a bit pfx data l r =>
          cases right with
          | nil => cases same
          | cons m more =>
              cases m with
              | null => exact (hr null List.mem_cons_self rfl).elim
              | node =>
                  have first := (List.cons.inj same).1
                  rw [← first] at same ⊢
                  rw [List.flatMap_cons, List.flatMap_cons] at same
                  rw [ih (fun n mem => hl n (List.mem_cons_of_mem _ mem))
                    (fun n mem => hr n (List.mem_cons_of_mem _ mem))
                    (List.append_cancel_left same)]

/-- What a walk has still to visit stands on stairs. -/
structure Climbing (tree : σ → PatriciaNode α) (Inv : σ → Prop) (w : Walk σ)
    (todo : List (PatriciaNode α)) : Prop where
  inv : Inv w.st
  pending : Pending (tree w.st) w todo
  stairs : StairsFrom todo

/-- One iteration keeps the stairs: it puts the children of a node in its place, or leaves them
out.
-/
theorem Climbing.step (spec : Replays tree body Inv stops frees abs visit) {w w' : Walk σ}
    {a : Nat} {todo : List (PatriciaNode α)} (climbing : Climbing tree Inv w todo)
    (rn : w.rn = some a) (done : walkStep tree body w a = .ok w')
    : ∃ todo', Climbing tree Inv w' todo' := by
  obtain ⟨inv, pending, stairs⟩ := climbing
  cases todo with
  | nil =>
      have points := pending.points
      rw [rn] at points
      cases points
  | cons n rest =>
      rcases spec.step_pending inv pending with ⟨a', _, _, rn', failed, _⟩
        | ⟨a', w'', met, rn', ran, inv', pending', order, _⟩
      · obtain rfl := Option.some.inj (rn.symm.trans rn')
        cases done.symm.trans failed
      · obtain rfl := Option.some.inj (rn.symm.trans rn')
        obtain rfl := Except.ok.inj (done.symm.trans ran)
        refine ⟨met ++ rest, inv', pending', ?_⟩
        obtain ⟨k, rooted⟩ := (spec.wf _ inv).within (pending.within n List.mem_cons_self)
        have present (m : PatriciaNode α) (mem : m ∈ met) : m ≠ null :=
          (pending'.within m (List.mem_append_left _ mem)).ne_null
        obtain ⟨a', bit, pfx, data, l, r, rfl⟩ := rooted.exists_node
        rw [preorder] at order
        have order := (List.cons.inj order).2
        split at order
        · have none : met = [] := preorder_injective present (List.forall_mem_nil _) order.symm
          rw [none]
          exact Stairs.from stairs
        · rw [← children_flatMap _ rfl] at order
          rw [preorder_injective present (fun m mem => (mem_children.mp mem).1) order.symm]
          exact rooted.stairs stairs

/-- A walk stays on stairs, by induction on its iterations. -/
theorem WalkReaches.climbing (spec : Replays tree body Inv stops frees abs visit) {st : σ}
    (inv : Inv st) {w : Walk σ} (reached : WalkReaches tree body st w)
    : ∃ todo, Climbing tree Inv w todo := by
  induction reached with
  | start =>
      cases head : tree st with
      | null =>
          refine ⟨[], inv, ⟨?_, fun _ => rfl, ?_, List.nodup_nil⟩, trivial⟩
          · simp [ptr]
          · exact fun _ mem => absurd mem List.not_mem_nil
      | node a bit pfx data l r =>
          have distinct := spec.distinct _ inv
          rw [head] at distinct
          refine ⟨[node a bit pfx data l r], inv, ⟨?_, ?_, ?_, ?_⟩, trivial⟩
          · simp [ptr]
          · exact fun ended => absurd ended (by simp [ptr])
          · intro n mem
            rw [List.mem_singleton.mp mem, head]
            exact Within.self (by simp)
          · simpa using distinct
  | next _ rn done ih =>
      obtain ⟨todo, climbing⟩ := ih
      exact climbing.step spec rn done

/-- The stairs of a well-formed tree are no higher than its keys. -/
theorem Pending.stack_le {t : PatriciaNode α} {w : Walk σ} {todo : List (PatriciaNode α)}
    (pending : Pending t w todo) (wf : WellFormed t) (stairs : StairsFrom todo)
    : w.stack.length ≤ patriciaMaxbits := by
  have length := congrArg List.length pending.points
  rw [List.length_map, List.length_append, List.length_map] at length
  cases todo with
  | nil =>
      rw [List.length_nil] at length
      omega
  | cons n rest =>
      obtain ⟨k, rooted⟩ := wf.within (pending.within n List.mem_cons_self)
      obtain ⟨a, bit, pfx, data, l, r, rfl⟩ := rooted.exists_node
      have next : w.rn.toList.length = 1 := by
        cases rn : w.rn with
        | none => cases pending.ends rn
        | some a => rfl
      have deep : rest.length ≤ bit := Stairs.length_le stairs
      have bound : bit ≤ 128 := rooted.1.bound
      rw [List.length_cons] at length
      change _ ≤ 128
      omega

/-- No walk has more than `PATRICIA_MAXBITS` nodes on its stack. -/
theorem WalkReaches.stack_le (spec : Replays tree body Inv stops frees abs visit) {st : σ}
    (inv : Inv st) {w : Walk σ} (reached : WalkReaches tree body st w)
    : w.stack.length ≤ patriciaMaxbits := by
  obtain ⟨todo, inv', pending, stairs⟩ := reached.climbing spec inv
  exact pending.stack_le (spec.wf _ inv') stairs

-----------------------------------------------------------------------------------------
-- Searches
-----------------------------------------------------------------------------------------

/-- The stack of `patricia_search_best2` when the pop loop begins. -/
def best2Stack (patricia : PatriciaTree α) (pfx : Prefix) (inclusive : Bool) : List (Loc α) :=
  let (last, stack) := searchDescend pfx.add.toList pfx.bitlen patricia.head [] []
  if inclusive && last.hasPrefix then last :: stack else stack

/-- `patricia_search_best2` pops its stack. -/
theorem patriciaSearchBest2_pops {patricia : PatriciaTree α} {pfx : Prefix}
    (fits : pfx.bitlen ≤ patricia.maxbits) (inclusive : Bool)
    : patriciaSearchBest2 patricia pfx inclusive
      = .ok ((best2Stack patricia pfx inclusive).find?
          (Loc.matches pfx.add.toList pfx.bitlen)) := by
  rw [patriciaSearchBest2, if_pos fits]
  rfl

/-- A search pushes at most one node a bit, by induction on the subtree. -/
theorem searchDescend_stack (addr : List Byte) (bitlen : Nat) {n : PatriciaNode α}
    (path : List (Frame α)) (stack : List (Loc α)) {req : List Bool} (hn : Hangs req n)
    (short : req.length ≤ bitlen)
    : (searchDescend addr bitlen n path stack).2.length + req.length ≤ stack.length + bitlen := by
  induction n generalizing path stack req with
  | null => exact Nat.add_le_add_left short _
  | node a bit pfx data l r ihl ihr =>
      obtain ⟨k, below, hk⟩ := hn.rooted (by simp)
      have le : req.length ≤ bit := hk.1.keyLength ▸ below.length_le
      rw [searchDescend]
      split
      · next deeper =>
          have next (b : Bool) : (k ++ [b]).length = bit + 1 := by
            rw [List.length_append, hk.1.keyLength, List.length_singleton]
          have pushes : (if pfx.isSome then ⟨node a bit pfx data l r, path⟩ :: stack
              else stack).length ≤ stack.length + 1 := by
            split
            · exact Nat.le_refl _
            · exact Nat.le_succ _
          dsimp only
          split
          · have deep := ihr (⟨a, bit, pfx, data, true, l⟩ :: path)
              (if pfx.isSome then ⟨node a bit pfx data l r, path⟩ :: stack else stack)
              (hk.side true) (next true ▸ deeper)
            rw [next] at deep
            omega
          · have deep := ihl (⟨a, bit, pfx, data, false, r⟩ :: path)
              (if pfx.isSome then ⟨node a bit pfx data l r, path⟩ :: stack else stack)
              (hk.side false) (next false ▸ deeper)
            rw [next] at deep
            omega
      · dsimp only
        omega

/-- No search has more than `PATRICIA_MAXBITS + 1` nodes on its stack. -/
theorem best2Stack_le {patricia : PatriciaTree α} {pfx : Prefix} (ok : TreeOk patricia)
    (short : pfx.bitlen ≤ 128) (inclusive : Bool)
    : (best2Stack patricia pfx inclusive).length ≤ patriciaMaxbits + 1 := by
  have pushes := searchDescend_stack pfx.add.toList pfx.bitlen [] [] ok.wf (Nat.zero_le _)
  have pushes : (searchDescend pfx.add.toList pfx.bitlen patricia.head [] []).2.length ≤ 128 :=
    Nat.le_trans (by simpa using pushes) short
  unfold best2Stack
  dsimp only
  change _ ≤ 129
  split
  · exact Nat.succ_le_succ pushes
  · exact Nat.le_succ_of_le pushes

end Lixy
