import Lixy.Common

/-! Searching, deleting and assigning in the list wrapper. A pointer to a datum is its place
in the list; a search splits the list at the first datum that compares equal.
-/

namespace Lixy

variable {α : Type}

/-- `search_listnode`: the first datum that compares equal, with its place for the pointer. -/
def searchListnode (list : ListT α) (cmp : α → Bool) : Option (Nat × α) := do
  let place ← list.nodes.findIdx? cmp
  let data ← list.nodes[place]?
  return (place, data)

/-- `delete_listnode` of the datum at a place; a pointer to none changes nothing. -/
def deleteListnode (list : ListT α) (place : Nat) : ListT α :=
  if place < list.nodes.length then
    { nodes := list.nodes.eraseIdx place, count := list.count - 1 }
  else
    list

/-- Assign through a pointer that `search_listnode` returned. -/
def ListT.write (list : ListT α) (place : Nat) (data : α) : ListT α :=
  { list with nodes := list.nodes.set place data }

@[simp]
theorem appendListnode_nodes (list : ListT α) (data : α)
    : (appendListnode list data).nodes = list.nodes ++ [data] := rfl

section

variable {list : ListT α} {cmp : α → Bool} {place : Nat} {data : α} {front back : List α}

/-- A search that misses. -/
theorem searchListnode_eq_none
    : searchListnode list cmp = none ↔ ∀ data ∈ list.nodes, cmp data = false := by
  rw [← List.findIdx?_eq_none_iff]
  constructor
  · intro missed
    cases found : list.nodes.findIdx? cmp with
    | none => rfl
    | some place =>
        obtain ⟨inside, _⟩ := List.findIdx?_eq_some_iff_getElem.mp found
        simp [searchListnode, found, List.getElem?_eq_getElem inside] at missed
  · intro missed
    simp [searchListnode, missed]

/-- A search that hits splits the list at the first datum that compares equal. -/
theorem searchListnode_split (found : searchListnode list cmp = some (place, data))
    : ∃ front back, list.nodes = front ++ data :: back ∧ front.length = place
        ∧ cmp data = true ∧ ∀ other ∈ front, cmp other = false := by
  cases hit : list.nodes.findIdx? cmp with
  | none => simp [searchListnode, hit] at found
  | some i =>
      obtain ⟨inside, equal, before⟩ := List.findIdx?_eq_some_iff_getElem.mp hit
      simp only [searchListnode, hit, Option.bind_eq_bind, Option.bind_some,
        List.getElem?_eq_getElem inside, pure, Option.some.injEq, Prod.mk.injEq] at found
      obtain ⟨rfl, rfl⟩ := found
      refine ⟨list.nodes.take i, list.nodes.drop (i + 1), ?_, ?_, equal, ?_⟩
      · rw [List.cons_getElem_drop_succ, List.take_append_drop]
      · exact List.length_take_of_le (Nat.le_of_lt inside)
      · intro other mem
        obtain ⟨j, lt, rfl⟩ := List.getElem_of_mem mem
        rw [List.length_take] at lt
        rw [List.getElem_take]
        exact eq_false_of_ne_true (before j (by omega))

/-- A search finds the first datum that compares equal. -/
theorem searchListnode_of_split (split : list.nodes = front ++ data :: back)
    (equal : cmp data = true) (before : ∀ other ∈ front, cmp other = false)
    : searchListnode list cmp = some (front.length, data) := by
  have hit : list.nodes.findIdx? cmp = some front.length := by
    rw [split, List.findIdx?_eq_some_iff_getElem]
    refine ⟨by simp, by simpa using equal, fun j lt => ?_⟩
    rw [List.getElem_append_left lt, before _ (List.getElem_mem lt)]
    exact Bool.false_ne_true
  have there : list.nodes[front.length]? = some data := by simp [split]
  simp [searchListnode, hit, there]

theorem searchListnode_getElem? (found : searchListnode list cmp = some (place, data))
    : list.nodes[place]? = some data := by
  obtain ⟨front, back, split, rfl, _⟩ := searchListnode_split found
  simp [split]

theorem deleteListnode_split (split : list.nodes = front ++ data :: back)
    (there : front.length = place)
    : (deleteListnode list place).nodes = front ++ back
      ∧ (deleteListnode list place).count = list.count - 1 := by
  subst there
  have inside : front.length < list.nodes.length := by simp [split]
  rw [deleteListnode, if_pos inside]
  refine ⟨?_, rfl⟩
  change list.nodes.eraseIdx front.length = front ++ back
  rw [split, List.eraseIdx_append_of_length_le (Nat.le_refl _), Nat.sub_self,
    List.eraseIdx_cons_zero]

theorem ListT.write_split (split : list.nodes = front ++ data :: back)
    (there : front.length = place) (data' : α)
    : (list.write place data').nodes = front ++ data' :: back := by
  subst there
  simp [ListT.write, split]

end

-----------------------------------------------------------------------------------------
-- The counter
-----------------------------------------------------------------------------------------

/-- The counter kept beside the data is their number. -/
def ListT.Counted (list : ListT α) : Prop := list.count = BitVec.ofNat 32 list.nodes.length

section

variable {list : ListT α}

theorem counted_createList : (createList : ListT α).Counted := rfl

theorem ListT.Counted.append (h : list.Counted) (data : α)
    : (appendListnode list data).Counted := by
  change list.count + 1 = _
  rw [h, appendListnode_nodes, List.length_append, List.length_singleton, BitVec.ofNat_add]
  rfl

theorem ListT.Counted.delete (h : list.Counted) (place : Nat)
    : (deleteListnode list place).Counted := by
  unfold deleteListnode
  split
  · next inside =>
      change list.count - 1 = _
      rw [h, List.length_eraseIdx_of_lt inside]
      exact BitVec.ofNat_sub_ofNat_of_le _ 1 (by decide) (by omega)
  · exact h

theorem ListT.Counted.write (h : list.Counted) (place : Nat) (data : α)
    : (list.write place data).Counted := by
  change list.count = _
  rw [h, ListT.write, List.length_set]

/-- The counter, as a number, is that of the data. -/
def ListT.CountsNodes (list : ListT α) : Prop := list.count.toNat = list.nodes.length

/-- A list that is counted has such a counter while its length fits the counter. -/
theorem ListT.Counted.countsNodes_iff (h : list.Counted)
    : list.CountsNodes ↔ list.nodes.length < 2 ^ 32 := by
  rw [CountsNodes, h, BitVec.toNat_ofNat]
  constructor
  · intro counts
    rw [← counts]
    exact Nat.mod_lt _ (by decide)
  · exact Nat.mod_eq_of_lt

theorem ListT.CountsNodes.counted (h : list.CountsNodes) : list.Counted := by
  rw [Counted, ← h, BitVec.ofNat_toNat, BitVec.setWidth_eq]

/-- A counted list is the one built from its data. -/
theorem ListT.Counted.eq_listOf (h : list.Counted) : list = listOf list.nodes := by
  obtain ⟨nodes, count⟩ := list
  have count_eq : count = BitVec.ofNat 32 nodes.length := h
  rw [count_eq]
  simp [listOf, foldl_appendListnode, createList]

end

-----------------------------------------------------------------------------------------
-- Lists with keys
-----------------------------------------------------------------------------------------

section

variable {α κ : Type} {key : α → κ} {list : ListT α} {data : α}

/-- No two data of the list have the same key, and they are counted. -/
structure ListT.Keyed (key : α → κ) (list : ListT α) : Prop where
  distinct : (list.nodes.map key).Nodup
  counted : list.Counted

theorem keyed_createList : (createList : ListT α).Keyed key := ⟨List.nodup_nil, counted_createList⟩

/-- Appending a datum whose key no other has. -/
theorem ListT.Keyed.append (h : list.Keyed key)
    (absent : ∀ other ∈ list.nodes, key other ≠ key data)
    : (appendListnode list data).Keyed key := by
  refine ⟨?_, h.counted.append data⟩
  rw [appendListnode_nodes, List.map_append, List.map_singleton, List.nodup_append]
  refine ⟨h.distinct, List.nodup_singleton _, ?_⟩
  intro k mem k' mem' same
  obtain ⟨other, inside, rfl⟩ := List.mem_map.mp mem
  obtain rfl := List.mem_singleton.mp mem'
  exact absent other inside same

theorem deleteListnode_sublist (list : ListT α) (place : Nat)
    : (deleteListnode list place).nodes.Sublist list.nodes := by
  unfold deleteListnode
  split
  · exact List.eraseIdx_sublist _ _
  · exact List.Sublist.refl _

theorem ListT.Keyed.delete (h : list.Keyed key) (place : Nat)
    : (deleteListnode list place).Keyed key :=
  ⟨h.distinct.sublist ((deleteListnode_sublist list place).map key), h.counted.delete place⟩

/-- Assigning to a datum what has its key. -/
theorem ListT.Keyed.write (h : list.Keyed key) {place : Nat}
    (there : list.nodes[place]? = some data) {data' : α} (same : key data' = key data)
    : (list.write place data').Keyed key := by
  refine ⟨?_, h.counted.write place data'⟩
  have keys : (list.nodes.set place data').map key = list.nodes.map key := by
    obtain ⟨inside, rfl⟩ := List.getElem?_eq_some_iff.mp there
    rw [List.map_set, same, ← List.getElem_map key, List.set_getElem_self]
    simpa using inside
  change ((list.nodes.set place data').map key).Nodup
  rw [keys]
  exact h.distinct

end

end Lixy
