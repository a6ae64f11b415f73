import Lixy.Patricia.Subtrees

/-! `patricia_remove` takes one entry out of a well-formed tree and keeps the rest of it,
every subtree away from the removed node included.
-/

namespace Lixy

open ByteStrings
open PatriciaNode

variable {α : Type}

section Shapes

variable {before after : PatriciaTree α} {a bit : Nat} {pfx : Option Prefix} {data : Option α}
  {l r : PatriciaNode α} {path : List (Frame α)}

/-- The three outcomes of a removal: a node with two children becomes glue, any other node
gives way to its child, and a leaf below glue takes the glue along.
-/
inductive RemovalShape (before after : PatriciaTree α) (a bit : Nat) (l r : PatriciaNode α)
    : List (Frame α) → Prop
  | glue {path : List (Frame α)} (left : l ≠ null) (right : r ≠ null)
      (head : after.head = plug (node a bit none none l r) path)
      : RemovalShape before after a bit l r path
  | splice {path : List (Frame α)} (child : PatriciaNode α)
      (only : (l = child ∧ r = null) ∨ (l = null ∧ r = child))
      (place : child ≠ null ∨ path = [] ∨ ∃ f above, path = f :: above ∧ f.pfx.isSome)
      (head : after.head = plug child path)
      : RemovalShape before after a bit l r path
  | collapse {f : Frame α} {path : List (Frame α)} (left : l = null) (right : r = null)
      (bare : f.pfx = none) (sibling : f.sibling ≠ null)
      (head : after.head = plug f.sibling path)
      : RemovalShape before after a bit l r (f :: path)

/-- One case per branch of the source. -/
theorem patriciaRemove_shape
    (done : patriciaRemove before ⟨node a bit pfx data l r, path⟩ = .ok after)
    : RemovalShape before after a bit l r path
      ∧ after.maxbits = before.maxbits ∧ after.brk = before.brk := by
  simp only [patriciaRemove] at done
  split at done
  · next both =>
      obtain ⟨right, left⟩ : r ≠ null ∧ l ≠ null := by simpa using both
      obtain rfl := Except.ok.inj done
      exact ⟨.glue left right rfl, rfl, rfl⟩
  · next notBoth =>
      split at done
      · next leaf =>
          obtain ⟨rfl, rfl⟩ : r = null ∧ l = null := by simpa using leaf
          cases path with
          | nil =>
              obtain rfl := Except.ok.inj done
              exact ⟨.splice null (Or.inl ⟨rfl, rfl⟩) (Or.inr (Or.inl rfl)) rfl, rfl, rfl⟩
          | cons f above =>
              dsimp only at done
              split at done
              · next prefixed =>
                  obtain rfl := Except.ok.inj done
                  exact ⟨.splice null (Or.inl ⟨rfl, rfl⟩)
                    (Or.inr (Or.inr ⟨f, above, rfl, prefixed⟩)) rfl, rfl, rfl⟩
              · next bare =>
                  split at done
                  · cases done
                  · next sibling =>
                      obtain rfl := Except.ok.inj done
                      exact ⟨.collapse rfl rfl (by simpa using bare) (by simpa using sibling) rfl,
                        rfl, rfl⟩
      · next notLeaf =>
          obtain rfl := Except.ok.inj done
          by_cases right : r = null
          · subst right
            have left : l ≠ null := fun none => notLeaf (by simp [none])
            exact ⟨.splice l (Or.inl ⟨rfl, rfl⟩) (Or.inl left) (by simp), rfl, rfl⟩
          · have left : l = null := by
              by_contra present
              exact notBoth (by simp [right, present])
            exact ⟨.splice r (Or.inr ⟨left, rfl⟩) (Or.inl right) (by simp [right]), rfl, rfl⟩

/-- A removal fails only at a leaf below a node without prefix and without other child. -/
theorem patriciaRemove_total {z : Loc α} (ok : LocOk z) (noOrphans : NoOrphans z.head)
    : ∃ after, patriciaRemove before z = .ok after := by
  obtain ⟨n, path⟩ := z
  obtain ⟨req, k, hpath, below, hn⟩ := id ok
  obtain ⟨a, bit, pfx, data, l, r, rfl⟩ := hn.exists_node
  simp only [patriciaRemove]
  split
  · exact ⟨_, rfl⟩
  · split
    · cases path with
      | nil => exact ⟨_, rfl⟩
      | cons f above =>
          dsimp only
          split
          · exact ⟨_, rfl⟩
          · next bare =>
              split
              · next alone =>
                  exfalso
                  obtain ⟨kf, _, own, _⟩ := hpath
                  have none : f.pfx = none := by simpa using bare
                  have empty : f.data = Option.none := by
                    cases carried : f.data with
                    | none => rfl
                    | some d =>
                        have mem : (Option.none, d)
                            ∈ (Loc.head ⟨node a bit pfx data l r, f :: above⟩).carriers := by
                          refine (plug_collect _ _ _).mem_iff.mpr (List.mem_append_right _ ?_)
                          simp [pathCollect, none, carried, nodeCarrier]
                        exact absurd (noOrphans _ mem) (by simp)
                  rcases own.glue none with ⟨_, some⟩ | ⟨_, sibling⟩
                  · simp [empty] at some
                  · exact sibling (isNull_eq_true.mp alone)
              · exact ⟨_, rfl⟩
    · exact ⟨_, rfl⟩

/-- Every outcome is well formed. -/
theorem RemovalShape.wellFormed (shape : RemovalShape before after a bit l r path)
    {req k : List Bool} (hpath : PathOk path req) (below : req <+: k)
    (hn : Rooted k (node a bit pfx data l r))
    : WellFormed after.head := by
  cases shape with
  | glue left right head =>
      rw [head]
      refine hpath.plug below (k := k) ⟨⟨hn.1.keyLength, hn.1.bound, nofun, ?_⟩, hn.2⟩
      exact fun _ => Or.inr ⟨rfl, left, right⟩
  | splice child only place head =>
      rw [head]
      by_cases present : child = null
      · subst present
        rcases place with absurdity | rfl | ⟨f, above, rfl, prefixed⟩
        · exact absurd rfl absurdity
        · exact Or.inl rfl
        · obtain ⟨kf, _, own, sibling, top, up, habove⟩ := hpath
          refine habove.plug up (k := kf) ?_
          have bare (both : Prop) : NodeOk kf f.bit f.pfx f.data both := by
            refine ⟨own.keyLength, own.bound, own.own, fun none => ?_⟩
            simp [none] at prefixed
          unfold Frame.fill
          split
          · next right =>
              simp only [right, Bool.not_true] at sibling
              exact ⟨bare _, sibling, Or.inl rfl⟩
          · next left =>
              simp only [left, Bool.not_false] at sibling
              exact ⟨bare _, Or.inl rfl, sibling⟩
      · obtain ⟨b, same⟩ : ∃ b, child = side b l r := by
          rcases only with ⟨rfl, _⟩ | ⟨_, rfl⟩
          · exact ⟨false, rfl⟩
          · exact ⟨true, rfl⟩
        obtain ⟨kc, belowc, hc⟩ := (hn.side b).rooted (same ▸ present)
        rw [same]
        exact hpath.plug (below.trans ((List.prefix_append k [b]).trans belowc)) hc
  | collapse left right bare sibling head =>
      rw [head]
      obtain ⟨kf, _, own, hs, top, up, habove⟩ := hpath
      obtain ⟨ks, belows, hks⟩ := hs.rooted sibling
      exact habove.plug (up.trans ((List.prefix_append kf _).trans belows)) hks

/-- What the tree holds after a removal, up to the removed node and collapsed glue. -/
theorem RemovalShape.collect {γ : Type} (shape : RemovalShape before after a bit l r path)
    (f : Nat → Option Prefix → Option α → List γ)
    : ((after.head.collect f).Perm
          (f a none none ++ (l.collect f ++ r.collect f ++ pathCollect f path))
        ∧ l ≠ null ∧ r ≠ null)
      ∨ ((l = null ∨ r = null)
          ∧ ∃ glue, (l.collect f ++ r.collect f ++ pathCollect f path).Perm
              (glue ++ after.head.collect f)
            ∧ (glue = [] ∨ ∃ addr data, glue = f addr none data)) := by
  cases shape with
  | glue left right head =>
      rw [head]
      refine Or.inl ⟨?_, left, right⟩
      refine (plug_collect f _ path).trans ?_
      simp [PatriciaNode.collect]
  | splice child only place head =>
      rw [head]
      have children : l.collect f ++ r.collect f = child.collect f := by
        rcases only with ⟨rfl, rfl⟩ | ⟨rfl, rfl⟩ <;> simp [PatriciaNode.collect]
      refine Or.inr ⟨only.elim (fun h => Or.inr h.2) (fun h => Or.inl h.1), [], ?_, Or.inl rfl⟩
      rw [children]
      exact (plug_collect f child path).symm
  | @collapse fr above left right bare sibling head =>
      rw [head]
      refine Or.inr ⟨Or.inl left, f fr.addr none fr.data, ?_, Or.inr ⟨_, _, rfl⟩⟩
      subst left right
      simp only [PatriciaNode.collect, List.nil_append, pathCollect, bare, List.append_assoc]
      exact (plug_collect f fr.sibling above).symm.append_left _

/-- Every subtree beside or below the removed node survives. -/
theorem RemovalShape.within (shape : RemovalShape before after a bit l r path)
    {sub : PatriciaNode α}
    (h : (Within sub l ∨ Within sub r) ∨ ∃ f ∈ path, Within sub f.sibling)
    : Within sub after.head := by
  cases shape with
  | glue left right head =>
      rw [head]
      rcases h with h | ⟨f, hf, h⟩
      · have inside : Within sub (node a bit none none l r) := Or.inr h
        exact within_plug inside path
      · exact within_beside hf h _
  | splice child only place head =>
      rw [head]
      rcases h with h | ⟨f, hf, h⟩
      · refine within_plug ?_ path
        rcases only with ⟨rfl, rfl⟩ | ⟨rfl, rfl⟩ <;> simpa [Within] using h
      · exact within_beside hf h _
  | collapse left right bare sibling head =>
      rw [head]
      subst left right
      rcases h with h | ⟨f, hf, h⟩
      · simp [Within] at h
      · rcases List.mem_cons.mp hf with rfl | hf
        · exact within_plug h _
        · exact within_beside hf h _

/-- A node with both children stays, as glue. -/
theorem RemovalShape.stays (shape : RemovalShape before after a bit l r path) (left : l ≠ null)
    (right : r ≠ null)
    : ∃ bit pfx data, Within (node a bit pfx data l r) after.head := by
  cases shape with
  | glue _ _ head =>
      rw [head]
      exact ⟨bit, none, none, within_plug (Within.self (by simp)) path⟩
  | splice child only place head =>
      rcases only with ⟨_, none⟩ | ⟨none, _⟩
      · exact absurd none right
      · exact absurd none left
  | collapse none => exact absurd none left

end Shapes

/-- What a removal of the entry `e` at a node with address `a` does. -/
structure Removed (before after : PatriciaTree α) (e : Prefix × α) (a : Nat)
    (l r : PatriciaNode α) : Prop where
  treeOk : TreeOk after
  store : after.head.store = LongestPrefix.erase before.head.store e.1.key
  entries : ∀ e' ∈ after.head.entries, e' ∈ before.head.entries
  noOrphans : NoOrphans before.head → NoOrphans after.head
  keeps : Keeps before.head after.head a l r (l.isNull || r.isNull)

/-- Removing the node at a position erases its entry. -/
theorem patriciaRemove_spec {before after : PatriciaTree α} {z : Loc α} {e : Prefix × α}
    {a bit : Nat} {l r : PatriciaNode α} (ok : TreeOk before) (locOk : LocOk z)
    (head : z.head = before.head)
    (node_eq : z.node = PatriciaNode.node a bit (some e.1) (some e.2) l r)
    (done : patriciaRemove before z = .ok after)
    : Removed before after e a l r := by
  obtain ⟨n, path⟩ := z
  obtain rfl : n = PatriciaNode.node a bit (some e.1) (some e.2) l r := node_eq
  obtain ⟨req, k, hpath, below, hn⟩ := id locOk
  obtain ⟨shape, maxbits, brk⟩ := patriciaRemove_shape done
  have wf := shape.wellFormed hpath below hn
  have old {γ : Type} (f : Nat → Option Prefix → Option α → List γ)
      : (before.head.collect f).Perm
          (f a (some e.1) (some e.2) ++ (l.collect f ++ r.collect f ++ pathCollect f path)) := by
    rw [← head]
    exact head_collect_of_node f rfl
  have entries : after.head.entries.Perm (l.entries ++ r.entries ++ pathEntries path) := by
    rcases shape.collect (fun _ => nodeEntry) with ⟨glue, _⟩ | ⟨_, glue, rest, empty⟩
    · exact glue
    · have none : glue = [] := by
        rcases empty with rfl | ⟨_, data, rfl⟩ <;> simp [nodeEntry]
      rw [none] at rest
      exact rest.symm
  have others : ∀ e' ∈ after.head.entries, e'.1.key ≠ e.1.key := by
    intro e' he'
    rw [(hn.1.own e.1 rfl).1]
    exact hpath.others_ne below hn (entries.mem_iff.mp he')
  have members : ∀ e', e' ∈ before.head.entries ↔ e' = e ∨ e' ∈ after.head.entries := by
    intro e'
    rw [PatriciaNode.entries, (old (fun _ => nodeEntry)).mem_iff, entries.mem_iff]
    simp only [nodeEntry, List.singleton_append, List.mem_cons]
    rfl
  have addrs := old (fun addr _ _ => [addr])
  have distinct := addrs.nodup_iff.mp ok.distinct
  refine
    { treeOk := ⟨wf, maxbits.trans ok.maxbits, ?_, ?_⟩
      store := ?_
      entries := fun e' he' => (members e').mpr (Or.inr he')
      noOrphans := ?_
      keeps := ⟨?_, ?_, fun sub h => shape.within (Or.inl h), ?_⟩ }
  · rcases shape.collect (fun addr _ _ => [addr]) with ⟨glue, _⟩ | ⟨_, glue, rest, _⟩
    · exact glue.nodup_iff.mpr distinct
    · have tail := (rest.nodup_iff.mp (List.nodup_append.mp distinct).2.1)
      exact (List.nodup_append.mp tail).2.1
  · intro x hx
    rw [brk]
    refine ok.fresh x (addrs.mem_iff.mpr ?_)
    rcases shape.collect (fun addr _ _ => [addr]) with ⟨glue, _⟩ | ⟨_, glue, rest, _⟩
    · exact glue.mem_iff.mp hx
    · exact List.mem_append_right _ (rest.mem_iff.mpr (List.mem_append_right _ hx))
  · refine store_eq_erase wf ok.wf others ?_
    intro other ne
    rw [members]
    exact ⟨Or.inr, fun h => h.resolve_left (fun same => ne (by rw [same]))⟩
  · intro noOrphans c hc
    refine noOrphans c ((old (fun _ => nodeCarrier)).mem_iff.mpr (List.mem_append_right _ ?_))
    rcases shape.collect (fun _ => nodeCarrier) with ⟨glue, _⟩ | ⟨_, glue, rest, _⟩
    · exact glue.mem_iff.mp hc
    · exact rest.mem_iff.mpr (List.mem_append_right _ hc)
  · intro both
    simp only [Bool.or_eq_false_iff, isNull_eq_false] at both
    exact shape.stays both.1 both.2
  · intro missing inside
    rcases shape.collect (fun addr _ _ => [addr]) with ⟨_, left, right⟩ | ⟨_, glue, rest, _⟩
    · simp [left, right] at missing
    · exact absurd (rest.mem_iff.mpr (List.mem_append_right _ inside))
        (List.nodup_cons.mp distinct).1
  · intro sub within outside
    rw [← head] at within
    exact shape.within (within_cases within outside)

end Lixy
