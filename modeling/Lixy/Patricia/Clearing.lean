import Lixy.Patricia.StackDepths
import Lixy.Patricia.Traversals

/-! `Clear_Patricia` frees every node once and hands over every datum once; the tree is left with
a head that points to freed memory.
-/

namespace Lixy

open ByteStrings
open PatriciaNode
open LongestPrefix (Store)
open EventRuns (run)

variable {α τ : Type}

-----------------------------------------------------------------------------------------
-- Clear_Patricia and Destroy_Patricia
-----------------------------------------------------------------------------------------

/-- What `Clear_Patricia` changes: the nodes and the prefixes it has freed, newest first, the
tree's counter, and the state of `func`.
-/
structure Cleared (τ : Type) where
  freed : List Nat
  deleted : List Prefix
  numActiveNode : Int
  st : τ

section

variable (head : PatriciaNode α) (func : Option (α → τ → τ))

/-- One node is released. `Deref_Prefix` deletes a prefix with its last reference. -/
def clearNode (addr : Nat) (pfx : Option Prefix) (data : Option α) (c : Cleared τ)
    : Except LibraryFault (Cleared τ) :=
  match pfx with
  | some pfx =>
      if pfx.refCount = 0 then
        .error (.assertFailed .referenced)
      else
        .ok
          { freed := addr :: c.freed
            deleted := if pfx.refCount = 1 then pfx :: c.deleted else c.deleted
            numActiveNode := c.numActiveNode - 1
            st :=
              match data, func with
              | some d, some f => f d c.st
              | _, _ => c.st }
  | none =>
      if data.isSome then
        .error (.assertFailed .glueIsEmpty)
      else
        .ok { c with freed := addr :: c.freed, numActiveNode := c.numActiveNode - 1 }

/-- One iteration at the node stored at `a`; its children are read before it is freed. -/
def clearStep (w : Walk (Cleared τ)) (a : Nat) : Except LibraryFault (Walk (Cleared τ)) := do
  match locate a head [] with
  | some ⟨.node addr _ pfx data l r, _⟩ =>
      let freedReads := if a ∈ w.st.freed then a :: w.freedReads else w.freedReads
      let st ← clearNode func addr pfx data w.st
      return ({ w with st, freedReads } : Walk (Cleared τ)).next l r
  | _ => .error (.fault .danglingNode)

/-- `while (Xrn)` -/
def clearLoop : Nat → Walk (Cleared τ) → Except LibraryFault (Walk (Cleared τ))
  | 0, _ => .error (.fault .outOfSteps)
  | fuel + 1, w =>
      match w.rn with
      | none => .ok w
      | some a => do clearLoop fuel (← clearStep head func w a)

end

/-- The loop of `Clear_Patricia` before its first iteration. -/
def clearStart (patricia : PatriciaTree α) (st : τ) : Walk (Cleared τ) :=
  { st := { freed := [], deleted := [], numActiveNode := patricia.numActiveNode, st }
    rn := patricia.head.ptr
    stack := []
    freedReads := [] }

/-- `Clear_Patricia`; the head is left as it is. -/
def clearPatricia (patricia : PatriciaTree α) (func : Option (α → τ → τ)) (st : τ)
    : Except LibraryFault (PatriciaTree α × Walk (Cleared τ)) := do
  let w ← clearLoop patricia.head func (patricia.head.size + 1) (clearStart patricia st)
  if w.st.numActiveNode = 0 then
    return ({ patricia with numActiveNode := w.st.numActiveNode }, w)
  else
    .error (.assertFailed .noActiveNode)

/-- The states that the loop passes through. -/
inductive ClearReaches (patricia : PatriciaTree α) (func : Option (α → τ → τ)) (st : τ)
    : Walk (Cleared τ) → Prop
  | start : ClearReaches patricia func st (clearStart patricia st)
  | next {w w' : Walk (Cleared τ)} {a : Nat} (before : ClearReaches patricia func st w)
      (rn : w.rn = some a) (done : clearStep patricia.head func w a = .ok w')
      : ClearReaches patricia func st w'

-----------------------------------------------------------------------------------------
-- One iteration
-----------------------------------------------------------------------------------------

/-- The nodes can be released: no data without a prefix, no prefix without references. -/
structure Releasable (n : PatriciaNode α) : Prop where
  noOrphans : NoOrphans n
  referenced : ∀ e ∈ n.entries, 0 < e.1.refCount

/-- What releasing a node does. -/
def clearVisit (func : Option (α → τ → τ)) (c : Cleared τ) (n : PatriciaNode α) : Cleared τ where
  freed := n.ptr.toList ++ c.freed
  deleted := ((ownEntry n).map Prod.fst).filter (·.refCount = 1) ++ c.deleted
  numActiveNode := c.numActiveNode - n.ptr.toList.length
  st := (ownEntry n).foldl (fun st e => (func.elim st fun f => f e.2 st)) c.st

section

variable {head : PatriciaNode α} {func : Option (α → τ → τ)} {w : Walk (Cleared τ)}
  {rest : List (PatriciaNode α)}

theorem clearNode_eq {k : List Bool} {a bit : Nat} {pfx : Option Prefix} {data : Option α}
    {l r : PatriciaNode α} (rooted : Rooted k (node a bit pfx data l r))
    (releasable : Releasable head) (within : Within (node a bit pfx data l r) head)
    (c : Cleared τ)
    : clearNode func a pfx data c = .ok (clearVisit func c (node a bit pfx data l r)) := by
  cases pfx with
  | some pfx =>
      obtain ⟨d, rfl⟩ := Option.isSome_iff_exists.mp (rooted.1.own pfx rfl).2
      have mem : (pfx, d) ∈ head.entries :=
        within.collect_subset (fun _ => nodeEntry) _ (by simp [collect, nodeEntry])
      have referenced := releasable.referenced _ mem
      unfold clearNode
      dsimp only
      rw [if_neg (Nat.ne_of_gt referenced)]
      refine congrArg Except.ok ?_
      cases func <;> by_cases last : pfx.refCount = 1
        <;> simp [clearVisit, ptr, ownEntry, nodeEntry, last]
  | none =>
      cases data with
      | some d =>
          have mem : (none, d) ∈ head.carriers :=
            within.collect_subset (fun _ => nodeCarrier) _ (by simp [collect, nodeCarrier])
          cases releasable.noOrphans _ mem
      | none => rfl

/-- An iteration releases the next pending node and goes on with its children. -/
theorem clearStep_pending (wf : WellFormed head) (distinct : head.addrs.Nodup)
    (releasable : Releasable head) {n : PatriciaNode α} (pending : Pending head w (n :: rest))
    (unread : ∀ a ∈ (n :: rest).flatMap addrs, a ∉ w.st.freed)
    : ∃ a w' todo, w.rn = some a ∧ clearStep head func w a = .ok w'
        ∧ Pending head w' (todo ++ rest)
        ∧ preorder (fun _ => false) n = n :: todo.flatMap (preorder fun _ => false)
        ∧ (todo.map size).sum < n.size
        ∧ (StairsFrom (n :: rest) → StairsFrom (todo ++ rest))
        ∧ (∀ b ∈ (todo ++ rest).flatMap addrs, b ∉ w'.st.freed)
        ∧ w'.st = clearVisit func w.st n
        ∧ w'.freedReads = w.freedReads := by
  have within := pending.within n List.mem_cons_self
  obtain ⟨k, rooted⟩ := wf.within within
  obtain ⟨a, bit, pfx, data, l, r, rfl⟩ := rooted.exists_node
  obtain ⟨rn, stack⟩ : w.rn = some a ∧ w.stack.map some = rest.map ptr := by
    cases rn : w.rn with
    | none => cases pending.ends rn
    | some a' => simpa [rn, ptr] using pending.points
  obtain ⟨above, located⟩ := within.locate distinct []
  have live : a ∉ w.st.freed := unread a (by simp [addrs_node])
  let w₁ : Walk (Cleared τ) := { w with st := clearVisit func w.st (node a bit pfx data l r) }
  have apart := pending.apart
  rw [List.flatMap_cons, addrs_node, List.cons_append, List.nodup_cons] at apart
  refine ⟨a, w₁.next l r, children l r, rn, ?_, ?_, ?_, ?_, rooted.stairs, ?_, w₁.next_st l r,
    w₁.next_freedReads l r⟩
  · rw [clearStep, located]
    simp only [if_neg live, clearNode_eq rooted releasable within]
    rfl
  · obtain ⟨points, ends⟩ := Walk.next_points (w := w₁) l r stack
    exact pending.next (Keeps.refl within) (fun _ mem => mem) pending.children_apart points ends
  · rw [children_flatMap _ rfl, preorder, if_neg Bool.false_ne_true]
  · rw [children_size, size]
    exact Nat.lt_succ_self _
  · intro b mem freed
    rw [List.flatMap_append, children_flatMap _ addrs_null] at mem
    rw [Walk.next_st] at freed
    rcases List.mem_append.mp freed with here | before
    · obtain rfl : b = a := by simpa [ptr] using here
      exact apart.1 mem
    · refine unread b ?_ before
      rw [List.flatMap_cons, addrs_node, List.cons_append]
      exact List.mem_cons_of_mem _ mem

/-- From its pending nodes on the loop releases them in preorder, by induction on the fuel. -/
theorem clearLoop_pending (wf : WellFormed head) (distinct : head.addrs.Nodup)
    (releasable : Releasable head) {fuel : Nat} {todo : List (PatriciaNode α)}
    (pending : Pending head w todo) (unread : ∀ a ∈ todo.flatMap addrs, a ∉ w.st.freed)
    (enough : (todo.map size).sum < fuel)
    : ∃ w', clearLoop head func fuel w = .ok w'
        ∧ w'.st = (todo.flatMap (preorder fun _ => false)).foldl (clearVisit func) w.st
        ∧ w'.freedReads = w.freedReads := by
  induction fuel generalizing w todo with
  | zero => cases enough
  | succ fuel ih =>
      cases todo with
      | nil =>
          have rn : w.rn = none := by
            cases rn : w.rn with
            | none => rfl
            | some a => simpa [rn] using pending.points
          exact ⟨w, by rw [clearLoop, rn], rfl, rfl⟩
      | cons n rest =>
          obtain ⟨a, w₁, todo, rn, ran, pending₁, order, smaller, _, unread₁, st, reads⟩ :=
            @clearStep_pending _ _ _ func _ _ wf distinct releasable _ pending unread
          have left : ((todo ++ rest).map size).sum < fuel := by
            simp only [List.map_cons, List.sum_cons, List.map_append, List.sum_append]
              at enough ⊢
            omega
          obtain ⟨w', done, st', reads'⟩ := ih pending₁ unread₁ left
          refine ⟨w', ?_, ?_, reads'.trans reads⟩
          · rw [clearLoop, rn]
            exact bind_eq_ok.mpr ⟨w₁, ran, done⟩
          · rw [st', st, List.flatMap_cons, List.flatMap_append, order, List.cons_append,
              List.foldl_cons]

/-- Releasing nodes one by one frees them all, each with its own part of the rest. -/
theorem foldl_clearVisit (func : Option (α → τ → τ)) (ns : List (PatriciaNode α)) (c : Cleared τ)
    : (ns.foldl (clearVisit func) c).freed = (ns.filterMap ptr).reverse ++ c.freed
      ∧ (ns.foldl (clearVisit func) c).deleted.Perm
        (((ns.flatMap ownEntry).map Prod.fst).filter (·.refCount = 1) ++ c.deleted)
      ∧ (ns.foldl (clearVisit func) c).numActiveNode
        = c.numActiveNode - (ns.filterMap ptr).length
      ∧ (ns.foldl (clearVisit func) c).st
        = (ns.flatMap ownEntry).foldl (fun st e => func.elim st fun f => f e.2 st) c.st := by
  induction ns generalizing c with
  | nil => exact ⟨rfl, List.Perm.refl _, (Int.sub_zero _).symm, rfl⟩
  | cons n rest ih =>
      obtain ⟨freed, deleted, count, st⟩ := ih (clearVisit func c n)
      rw [List.foldl_cons]
      refine ⟨?_, ?_, ?_, ?_⟩
      · rw [freed]
        cases n <;> simp [clearVisit, ptr, List.filterMap_cons]
      · refine deleted.trans ?_
        rw [List.flatMap_cons, List.map_append, List.filter_append, List.append_assoc]
        exact List.perm_append_comm_assoc _ _ _
      · rw [count]
        cases n <;> simp [clearVisit, ptr, List.filterMap_cons]
        omega
      · rw [st, List.flatMap_cons, List.foldl_append]
        rfl

end

-----------------------------------------------------------------------------------------
-- The whole call
-----------------------------------------------------------------------------------------

theorem preorder_addrs (n : PatriciaNode α)
    : (preorder (fun _ => false) n).filterMap ptr = n.addrs := by
  induction n with
  | null => rfl
  | node a bit pfx data l r ihl ihr =>
      rw [preorder, if_neg Bool.false_ne_true, List.filterMap_cons, List.filterMap_append, ihl, ihr]
      rfl

section

variable {t : PatriciaTree α} {func : Option (α → τ → τ)} {st : τ}

/-- At the start the head is pending. -/
theorem clearStart_pending (distinct : t.head.addrs.Nodup)
    : Pending t.head (clearStart t st) (children t.head null) := by
  refine ⟨?_, ?_, ?_, ?_⟩
  · cases head : t.head <;> simp [clearStart, children, isNull, ptr, head]
  · cases head : t.head <;> simp [clearStart, children, isNull, ptr, head]
  · intro n mem
    obtain ⟨there, rfl | rfl⟩ := mem_children.mp mem
    · exact Within.self there
    · exact (there rfl).elim
  · rw [children_flatMap _ addrs_null]
    simpa using distinct

/-- The loop never has more than `PATRICIA_MAXBITS` nodes on its stack: its pending nodes stand on
stairs, by induction on its iterations.
-/
theorem ClearReaches.stack_le (ok : TreeOk t) (releasable : Releasable t.head)
    {w : Walk (Cleared τ)} (reached : ClearReaches t func st w)
    : w.stack.length ≤ patriciaMaxbits := by
  have climbing : ∃ todo, Pending t.head w todo ∧ StairsFrom todo
      ∧ ∀ a ∈ todo.flatMap addrs, a ∉ w.st.freed := by
    induction reached with
    | start =>
        refine ⟨_, clearStart_pending ok.distinct, ?_, fun _ _ => List.not_mem_nil⟩
        cases t.head <;> trivial
    | next before rn done ih =>
        obtain ⟨todo, pending, stairs, unread⟩ := ih
        cases todo with
        | nil =>
            have points := pending.points
            rw [rn] at points
            cases points
        | cons n rest =>
            obtain ⟨_, _, todo, rn', ran, pending', _, _, stairs', unread', _⟩ :=
              @clearStep_pending _ _ _ func _ _ ok.wf ok.distinct releasable _ pending unread
            obtain rfl := Option.some.inj (rn.symm.trans rn')
            obtain rfl := Except.ok.inj (done.symm.trans ran)
            exact ⟨_, pending', stairs' stairs, unread'⟩
  obtain ⟨todo, pending, stairs, _⟩ := climbing
  exact pending.stack_le ok.wf stairs

/-- The loop frees every node, and hands `func` every datum. -/
theorem clearLoop_eq (ok : TreeOk t) (releasable : Releasable t.head)
    : ∃ w, clearLoop t.head func (t.head.size + 1) (clearStart t st) = .ok w
        ∧ w.freedReads = []
        ∧ w.st.freed = t.head.addrs.reverse
        ∧ w.st.deleted.Perm ((t.head.entries.map Prod.fst).filter (·.refCount = 1))
        ∧ w.st.numActiveNode = t.numActiveNode - t.head.size
        ∧ w.st.st = t.head.entries.foldl (fun st e => func.elim st fun f => f e.2 st) st := by
  have enough : ((children t.head null).map size).sum < t.head.size + 1 := by
    rw [children_size]
    exact Nat.lt_succ_self _
  have started : Pending t.head (clearStart t st) (children t.head null) :=
    clearStart_pending ok.distinct
  obtain ⟨w, done, final, reads⟩ := clearLoop_pending ok.wf ok.distinct releasable
    started (fun _ _ => List.not_mem_nil) enough
  have order : (children t.head null).flatMap (preorder fun _ => false)
      = preorder (fun _ => false) t.head := by
    rw [children_flatMap _ rfl]
    exact List.append_nil _
  obtain ⟨freed, deleted, count, called⟩ :=
    foldl_clearVisit func (preorder (fun _ => false) t.head) (clearStart t st).st
  rw [order] at final
  rw [preorder_addrs] at freed count
  rw [preorder_entries] at deleted called
  rw [← final] at freed deleted count called
  refine ⟨w, done, reads, freed.trans (List.append_nil _), ?_, ?_, called⟩
  · exact deleted.trans (List.Perm.of_eq (List.append_nil _))
  · rw [count, size_eq_addrs]
    rfl

end

/-- `Clear_Patricia` on a tree that has gone through any calls fails none of its assertions and
reads no freed memory, its stack fits, every node is freed once, and `func` is called once for
each key of the map, in lexicographic order. The head of the tree is left pointing to a node
that is freed.
-/
theorem clearPatricia_releases {inetPton6 : List Byte → Option (Bytes 16)}
    {calls : List (TreeCall α)} (fits : ∀ c ∈ calls, c.Fits inetPton6)
    : ∃ (t : PatriciaTree α) (map : Store Bool α) (entries : List (Prefix × α)),
        run (treeStep inetPton6) (newPatricia 128) calls = .ok t
        ∧ map = calls.foldl (TreeCall.effect inetPton6) (fun _ => none)
        ∧ (∀ key d, map key = some d ↔ ∃ e ∈ entries, e.1.key = key ∧ e.2 = d)
        ∧ entries.Pairwise (fun e e' => e.1.key < e'.1.key)
        ∧ ∀ {τ : Type} (func : Option (α → τ → τ)) (st : τ), ∃ after w,
            clearPatricia t func st = .ok (after, w)
            ∧ after = { t with numActiveNode := 0 }
            ∧ w.freedReads = []
            ∧ w.st.freed.Nodup ∧ (∀ a, a ∈ w.st.freed ↔ a ∈ t.head.addrs)
            ∧ (∀ a, after.head.ptr = some a → a ∈ w.st.freed)
            ∧ w.st.deleted.Perm ((entries.map Prod.fst).filter (·.refCount = 1))
            ∧ w.st.st = entries.foldl (fun st e => func.elim st fun f => f e.2 st) st
            ∧ ∀ w', ClearReaches t func st w' → w'.stack.length ≤ patriciaMaxbits := by
  obtain ⟨t, done, rep⟩ := run_represents fits represents_newPatricia
  have releasable : Releasable t.head := ⟨rep.noOrphans, rep.referenced⟩
  refine ⟨t, _, t.head.entries, done, rfl, rep.holds_iff, rep.ok.wf.entries_sorted, ?_⟩
  intro τ func st
  obtain ⟨w, looped, reads, freed, deleted, count, called⟩ :=
    @clearLoop_eq _ _ t func st rep.ok releasable
  have none : w.st.numActiveNode = 0 := by
    rw [count, rep.counted, Int.sub_self]
  have all (a : Nat) : a ∈ w.st.freed ↔ a ∈ t.head.addrs := by
    rw [freed, List.mem_reverse]
  refine ⟨{ t with numActiveNode := 0 }, w, ?_, rfl, reads, ?_, all, ?_, deleted, called,
    fun _ => ClearReaches.stack_le rep.ok releasable⟩
  · refine bind_eq_ok.mpr ⟨w, looped, ?_⟩
    rw [if_pos none, none]
    rfl
  · rw [freed]
    exact List.nodup_reverse.mpr rep.ok.distinct
  · intro a head
    refine (all a).mpr ?_
    change t.head.ptr = some a at head
    cases n : t.head with
    | null =>
        rw [n] at head
        cases head
    | node =>
        rw [n] at head
        obtain rfl := Option.some.inj head
        exact List.mem_cons_self

/-- Of the tree of the two networks every node is freed. -/
theorem twoNetworks_released
    : ∃ (t : PatriciaTree Nat) (after : PatriciaTree Nat) (w : Walk (Cleared Nat)),
        run (treeStep fun _ => none) (newPatricia 128) twoNetworks = .ok t
        ∧ clearPatricia t (some fun d total => d + total) 0 = .ok (after, w)
        ∧ w.freedReads = [] ∧ ∀ a, a ∈ w.st.freed ↔ a ∈ t.head.addrs := by
  obtain ⟨t, _, _, done, _, _, _, clears⟩ := clearPatricia_releases twoNetworks_fit
  obtain ⟨after, w, cleared, _, reads, _, all, _⟩ := clears (some fun d total => d + total) 0
  exact ⟨t, after, w, done, cleared, reads, all⟩

end Lixy
