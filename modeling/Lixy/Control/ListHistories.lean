import Lixy.Foundation.EventRuns
import Lixy.Control.Lists

/-! The list wrapper as list.c has it, on nodes that hold pointers: which histories of calls keep
its counter, and how it carries out the searches and deletions by place of the other modules.
-/

namespace Lixy

open EventRuns (Guarded)

-----------------------------------------------------------------------------------------
-- Nodes
-----------------------------------------------------------------------------------------

/-- `listnode_t`: the address of a node, and the pointer it holds. -/
structure Listnode (δ : Type) where
  addr : Nat
  data : δ
deriving DecidableEq

section

variable {δ : Type}

/-- `LL_APPEND` -/
def llAppend (head : List (Listnode δ)) (node : Listnode δ) : List (Listnode δ) := head ++ [node]

/-- `LL_DELETE` -/
def llDelete (head : List (Listnode δ)) (node : Listnode δ) : List (Listnode δ) :=
  head.eraseP (·.addr == node.addr)

/-- `list_t`: the nodes linked from `head`, in order, and the counter. The nodes of `malloc` lie
from `brk` on; none is ever freed.
-/
structure LinkedList (δ : Type) where
  head : List (Listnode δ)
  count : BitVec 32
  brk : Nat

namespace LinkedList

/-- `create_list` -/
def createList : LinkedList δ := { head := [], count := 0, brk := 0 }

/-- `append_listnode`, which returns the datum -/
def appendListnode (list : LinkedList δ) (data : δ) : LinkedList δ × Option δ :=
  let node : Listnode δ := { addr := list.brk, data }
  ({ head := llAppend list.head node, count := list.count + 1, brk := list.brk + 1 }, some data)

/-- `delete_listnode`, which returns the datum or NULL -/
def deleteListnode [DecidableEq δ] (list : LinkedList δ) (data : δ) : LinkedList δ × Option δ :=
  match list.head.find? (·.data = data) with
  | some node => ({ list with head := llDelete list.head node, count := list.count - 1 }, some data)
  | none => (list, none)

/-- `delete_list`: every node that the loop visits is unlinked. -/
def deleteList (list : LinkedList δ) : LinkedList δ :=
  { list with head := list.head.foldl llDelete list.head }

/-- `destroy_list`, with what it frees -/
def destroyList (list : LinkedList δ) : LinkedList δ × List δ :=
  ({ list with head := list.head.foldl llDelete list.head }, list.head.map (·.data))

/-- The list of the other modules: what the nodes hold, with the counter. -/
def toListT (list : LinkedList δ) : ListT δ :=
  { nodes := list.head.map (·.data), count := list.count }

/-- The nodes lie at addresses of their own, below those that `malloc` gives next. -/
structure Linked (list : LinkedList δ) : Prop where
  distinct : (list.head.map (·.addr)).Nodup
  below : ∀ node ∈ list.head, node.addr < list.brk

variable {list : LinkedList δ}

theorem linked_createList : (createList : LinkedList δ).Linked := ⟨List.nodup_nil, nofun⟩

theorem Linked.sublist (h : list.Linked) {head : List (Listnode δ)} (count : BitVec 32)
    (part : head.Sublist list.head)
    : ({ list with head, count } : LinkedList δ).Linked :=
  ⟨h.distinct.sublist (part.map _), fun node mem => h.below node (part.mem mem)⟩

/-- `malloc` gives the next node an address of its own. -/
theorem Linked.append (h : list.Linked) (data : δ) : (list.appendListnode data).1.Linked := by
  constructor
  · change ((list.head ++ [_]).map _).Nodup
    rw [List.map_append, List.map_singleton, List.nodup_append]
    refine ⟨h.distinct, List.nodup_singleton _, ?_⟩
    intro addr mem addr' mem' same
    obtain ⟨node, inside, rfl⟩ := List.mem_map.mp mem
    obtain rfl := List.mem_singleton.mp mem'
    exact absurd same (Nat.ne_of_lt (h.below node inside))
  · intro node mem
    rcases List.mem_append.mp mem with mem | mem
    · exact Nat.lt_succ_of_lt (h.below node mem)
    · obtain rfl := List.mem_singleton.mp mem
      exact Nat.lt_succ_self list.brk

-----------------------------------------------------------------------------------------
-- Unlinking
-----------------------------------------------------------------------------------------

/-- A node is unlinked from between the others. -/
theorem llDelete_split {front back : List (Listnode δ)} {node : Listnode δ}
    (distinct : ((front ++ node :: back).map (·.addr)).Nodup)
    : llDelete (front ++ node :: back) node = front ++ back := by
  have other : ∀ n ∈ front, ¬ (n.addr == node.addr) = true := by
    intro n mem same
    rw [List.map_append, List.map_cons, List.nodup_middle, List.nodup_cons, ← List.map_append]
      at distinct
    exact distinct.1 (beq_iff_eq.mp same ▸ List.mem_map_of_mem (List.mem_append_left _ mem))
  have own : (node :: back).eraseP (·.addr == node.addr) = back :=
    List.eraseP_cons_of_pos (beq_self_eq_true _)
  rw [llDelete, List.eraseP_append_right _ other, own]

/-- Unlinking every node leaves none, by induction on them. -/
theorem foldl_llDelete (head : List (Listnode δ)) : head.foldl llDelete head = [] := by
  induction head with
  | nil => rfl
  | cons node rest ih =>
      have first : llDelete (node :: rest) node = rest :=
        List.eraseP_cons_of_pos (beq_self_eq_true _)
      rw [List.foldl_cons, first, ih]

/-- A list that loses its nodes keeps its counter. -/
theorem cleared_counts_iff (counts : list.count.toNat = list.head.length)
    : list.count.toNat = (list.head.foldl llDelete list.head).length ↔ list.head = [] := by
  rw [foldl_llDelete, List.length_nil, counts, List.length_eq_zero_iff]

/-- `delete_listnode` unlinks the first node that holds the pointer, or there is none. -/
theorem deleteListnode_cases [DecidableEq δ] (linked : list.Linked) (data : δ)
    : (∃ front node back, list.head = front ++ node :: back ∧ node.data = data
        ∧ (∀ other ∈ front, other.data ≠ data)
        ∧ list.deleteListnode data
          = ({ list with head := front ++ back, count := list.count - 1 }, some data))
      ∨ (∀ node ∈ list.head, node.data ≠ data) ∧ list.deleteListnode data = (list, none) := by
  unfold deleteListnode
  cases found : list.head.find? (·.data = data) with
  | none =>
      refine .inr ⟨fun node mem => ?_, rfl⟩
      simpa using List.find?_eq_none.mp found node mem
  | some node =>
      obtain ⟨holds, front, back, split, before⟩ := List.find?_eq_some_iff_append.mp found
      refine .inl ⟨front, node, back, split, by simpa using holds, fun other mem => ?_, ?_⟩
      · simpa using before other mem
      · have distinct := linked.distinct
        rw [split] at distinct
        dsimp only
        rw [split, llDelete_split distinct]

-----------------------------------------------------------------------------------------
-- The list of the other modules
-----------------------------------------------------------------------------------------

theorem countsNodes_toListT
    : list.toListT.CountsNodes ↔ list.count.toNat = list.head.length := by
  rw [ListT.CountsNodes, toListT, List.length_map]

theorem toListT_appendListnode (data : δ)
    : (list.appendListnode data).1.toListT = Lixy.appendListnode list.toListT data := by
  simp [appendListnode, llAppend, toListT, Lixy.appendListnode]

/-- A pointer is deleted as the datum at its first place. -/
theorem toListT_deleteListnode [DecidableEq δ] (linked : list.Linked) (data : δ)
    : (list.deleteListnode data).1.toListT
      = Lixy.deleteListnode list.toListT (list.toListT.nodes.idxOf data) := by
  rcases deleteListnode_cases linked data
    with ⟨front, node, back, split, holds, before, done⟩ | ⟨absent, done⟩
  · have nodes : list.toListT.nodes = front.map (·.data) ++ data :: back.map (·.data) := by
      rw [toListT, split, List.map_append, List.map_cons, holds]
    have notBefore : data ∉ front.map (·.data) := by
      intro mem
      obtain ⟨other, inside, same⟩ := List.mem_map.mp mem
      exact before other inside same
    have place : (front.map (·.data)).length = list.toListT.nodes.idxOf data := by
      rw [nodes, List.idxOf_append_of_notMem notBefore, List.idxOf_cons_self, Nat.add_zero]
    obtain ⟨after, count⟩ := deleteListnode_split nodes place
    rw [done]
    change ListT.mk ((front ++ back).map (·.data)) (list.toListT.count - 1) = _
    rw [List.map_append, ← after, ← count]
  · have past : list.toListT.nodes.idxOf data = list.toListT.nodes.length := by
      rw [List.idxOf_eq_length_iff]
      intro mem
      obtain ⟨node, inside, same⟩ := List.mem_map.mp mem
      exact absent node inside same
    rw [done, Lixy.deleteListnode, past, if_neg (Nat.lt_irrefl _)]

end LinkedList

end

-----------------------------------------------------------------------------------------
-- Histories
-----------------------------------------------------------------------------------------

/-- A call on a list. -/
inductive ListCall (δ : Type)
  | append (data : δ)
  | delete (data : δ)
  | deleteList
  | destroyList

section

variable {δ : Type} [DecidableEq δ]

namespace LinkedList

/-- The list after a call. -/
def after (list : LinkedList δ) : ListCall δ → LinkedList δ
  | .append data => (list.appendListnode data).1
  | .delete data => (list.deleteListnode data).1
  | .deleteList => list.deleteList
  | .destroyList => list.destroyList.1

/-- A call as a step, which always returns. -/
def listStep (list : LinkedList δ) (call : ListCall δ) : Except Empty (LinkedList δ) :=
  .ok (list.after call)

/-- An append adds its datum last. A deletion removes just the first node that holds the pointer,
or it returns NULL and changes nothing where there is none.
-/
def Performs (list : LinkedList δ) : ListCall δ → Prop
  | .append data =>
      ∃ node, node.data = data ∧ (list.appendListnode data).1.head = list.head ++ [node]
  | .delete data =>
      (∃ front node back, list.head = front ++ node :: back ∧ node.data = data
          ∧ (∀ other ∈ front, other.data ≠ data)
          ∧ (list.deleteListnode data).1.head = front ++ back
          ∧ (list.deleteListnode data).2 = some data)
        ∨ (∀ node ∈ list.head, node.data ≠ data) ∧ list.deleteListnode data = (list, none)
  | _ => True

/-- The call leaves a counter that is the number of linked nodes, and does what it is to do. -/
def KeepsCount (list : LinkedList δ) (call : ListCall δ) : Prop :=
  (list.after call).count.toNat = (list.after call).head.length ∧ list.Performs call

/-- The list is empty where all its nodes are to go, and leaves the counter room for a node. -/
def MayCount (list : LinkedList δ) : ListCall δ → Prop
  | .append _ => list.head.length + 1 < 2 ^ 32
  | .delete _ => True
  | .deleteList => list.head = []
  | .destroyList => list.head = []

variable {list : LinkedList δ} {call : ListCall δ}

theorem performs (linked : list.Linked) : list.Performs call := by
  cases call with
  | append data => exact ⟨_, rfl, rfl⟩
  | delete data =>
      refine (deleteListnode_cases linked data).imp_left ?_
      rintro ⟨front, node, back, split, holds, before, done⟩
      exact ⟨front, node, back, split, holds, before, by rw [done], by rw [done]⟩
  | deleteList => trivial
  | destroyList => trivial

theorem Linked.after (linked : list.Linked) : (list.after call).Linked := by
  cases call with
  | append data => exact linked.append data
  | delete data =>
      rcases deleteListnode_cases linked data
        with ⟨front, node, back, split, _, _, done⟩ | ⟨_, done⟩
      · change (list.deleteListnode data).1.Linked
        rw [done]
        refine linked.sublist (list.count - 1) ?_
        rw [split]
        exact (List.Sublist.refl front).append (List.sublist_cons_self node back)
      · change (list.deleteListnode data).1.Linked
        rw [done]
        exact linked
  | deleteList =>
      refine linked.sublist list.count ?_
      rw [foldl_llDelete]
      exact List.nil_sublist _
  | destroyList =>
      refine linked.sublist list.count ?_
      rw [foldl_llDelete]
      exact List.nil_sublist _

/-- The counter after a call, where it was right before. -/
theorem after_counts_iff (linked : list.Linked) (counts : list.count.toNat = list.head.length)
    : (list.after call).count.toNat = (list.after call).head.length ↔ list.MayCount call := by
  have counted := (countsNodes_toListT.mpr counts).counted
  have short := counted.countsNodes_iff.mp (countsNodes_toListT.mpr counts)
  cases call with
  | append data =>
      rw [← countsNodes_toListT]
      change (list.appendListnode data).1.toListT.CountsNodes ↔ _
      rw [toListT_appendListnode, (counted.append data).countsNodes_iff, appendListnode_nodes,
        List.length_append, List.length_singleton, toListT, List.length_map]
      rfl
  | delete data =>
      rw [← countsNodes_toListT]
      change (list.deleteListnode data).1.toListT.CountsNodes ↔ _
      rw [toListT_deleteListnode linked, (counted.delete _).countsNodes_iff]
      exact iff_of_true (Nat.lt_of_le_of_lt (deleteListnode_sublist _ _).length_le short) trivial
  | deleteList => exact cleared_counts_iff counts
  | destroyList => exact cleared_counts_iff counts

/-- Every call of a history keeps the counter, and does what it is to do, exactly when no append
meets 2^32 - 1 nodes, and `delete_list` and `destroy_list` meet empty lists only.
-/
theorem history_keepsCount_iff (calls : List (ListCall δ))
    : Guarded listStep KeepsCount createList calls
      ↔ Guarded listStep MayCount createList calls := by
  let Inv (list : LinkedList δ) : Prop := list.Linked ∧ list.count.toNat = list.head.length
  refine @Guarded.congr _ _ _ listStep Inv _ _ _ _ ?_ ?_ ⟨linked_createList, rfl⟩
  · rintro list call ⟨linked, counts⟩
    rw [KeepsCount, after_counts_iff linked counts, and_iff_left (performs linked)]
  · rintro list call next ⟨linked, _⟩ keeps done
    obtain rfl := Except.ok.inj done
    exact ⟨linked.after, keeps.1⟩

/-- A pointer is appended and `delete_list` called: the list is empty, and counts one node. -/
theorem deleteList_keeps_counter
    : ¬ ∀ calls : List (ListCall Nat), Guarded listStep KeepsCount createList calls := by
  intro keeps
  obtain ⟨_, rest⟩ := keeps [.append 7, .deleteList]
  obtain ⟨⟨counts, _⟩, _⟩ := rest _ rfl
  exact absurd counts (by decide)

end LinkedList

end

end Lixy
