import Lixy.Patricia.Insertion

/-! Subtrees and their addresses: a pointer to a node of the tree keeps leading to the same
subtree while the tree changes elsewhere.
-/

namespace Lixy

open PatriciaNode

variable {α : Type}

/-- `sub` is a node of the tree together with everything below it. -/
def Within (sub : PatriciaNode α) : PatriciaNode α → Prop
  | null => False
  | node a bit pfx data l r => sub = node a bit pfx data l r ∨ Within sub l ∨ Within sub r

theorem Within.self {n : PatriciaNode α} (h : n ≠ null) : Within n n := by
  cases n with
  | null => exact absurd rfl h
  | node a bit pfx data l r => exact Or.inl rfl

theorem Within.ne_null {sub n : PatriciaNode α} (h : Within sub n) : sub ≠ null := by
  induction n with
  | null => exact h.elim
  | node a bit pfx data l r ihl ihr =>
      rcases h with rfl | h | h
      · simp
      · exact ihl h
      · exact ihr h

theorem Within.tree_ne_null {sub n : PatriciaNode α} (h : Within sub n) : n ≠ null := by
  rintro rfl
  exact h

theorem Within.trans {sub n m : PatriciaNode α} (h : Within sub n) (h' : Within n m)
    : Within sub m := by
  induction m with
  | null => exact h'.elim
  | node a bit pfx data l r ihl ihr =>
      rcases h' with rfl | h' | h'
      · exact h
      · exact Or.inr (Or.inl (ihl h'))
      · exact Or.inr (Or.inr (ihr h'))

theorem Within.below {sub : PatriciaNode α} {a bit : Nat} {pfx : Option Prefix}
    {data : Option α} {l r t : PatriciaNode α} (h : Within (node a bit pfx data l r) t)
    (inside : Within sub l ∨ Within sub r)
    : Within sub t := by
  have within : Within sub (node a bit pfx data l r) := Or.inr inside
  exact within.trans h

/-- What a subtree holds, the tree around it holds. -/
theorem Within.collect_subset {γ : Type} (f : Nat → Option Prefix → Option α → List γ)
    {sub n : PatriciaNode α} (h : Within sub n)
    : ∀ x ∈ sub.collect f, x ∈ n.collect f := by
  induction n with
  | null => exact h.elim
  | node a bit pfx data l r ihl ihr =>
      intro x hx
      rcases h with rfl | h | h
      · exact hx
      · simp [collect, ihl h x hx]
      · simp [collect, ihr h x hx]

/-- The node a pointer leads to lies at that address and inside the tree. -/
theorem locate_some {a : Nat} {n : PatriciaNode α} {path : List (Frame α)} {z : Loc α}
    (h : locate a n path = some z)
    : z.head = plug n path
      ∧ Within z.node n
      ∧ ∃ bit pfx data l r, z.node = PatriciaNode.node a bit pfx data l r := by
  induction n generalizing path with
  | null => cases h
  | node a' bit pfx data l r ihl ihr =>
      rw [locate] at h
      split at h
      · next same =>
          subst same
          obtain rfl := Option.some.inj h
          exact ⟨rfl, Or.inl rfl, bit, pfx, data, l, r, rfl⟩
      · split at h
        · next z' found =>
            obtain rfl := Option.some.inj h
            obtain ⟨head, within, node_eq⟩ := ihl found
            exact ⟨head, Or.inr (Or.inl within), node_eq⟩
        · obtain ⟨head, within, node_eq⟩ := ihr h
          exact ⟨head, Or.inr (Or.inr within), node_eq⟩

/-- A pointer into a well-formed subtree leads to a position of the tree around it. -/
theorem locate_locOk {a : Nat} {n : PatriciaNode α} {path : List (Frame α)} {z : Loc α}
    (h : locate a n path = some z) (start : LocOk ⟨n, path⟩)
    : LocOk z := by
  induction n generalizing path with
  | null => cases h
  | node a' bit pfx data l r ihl ihr =>
      obtain ⟨req, k, hpath, below, hk⟩ := id start
      have side {z' : Loc α} (b : Bool)
          (found : locate a (PatriciaNode.side b l r)
            (⟨a', bit, pfx, data, b, PatriciaNode.side (!b) l r⟩ :: path) = some z')
          : LocOk ⟨PatriciaNode.side b l r,
              ⟨a', bit, pfx, data, b, PatriciaNode.side (!b) l r⟩ :: path⟩ := by
        have child : PatriciaNode.side b l r ≠ null := by
          intro none
          rw [none] at found
          cases found
        obtain ⟨kc, belowc, hkc⟩ := (hk.side b).rooted child
        exact ⟨k ++ [b], kc, hpath.side below hk b, belowc, hkc⟩
      rw [locate] at h
      split at h
      · obtain rfl := Option.some.inj h
        exact start
      · split at h
        · next z' found =>
            obtain rfl := Option.some.inj h
            exact ihl found (side false found)
        · exact ihr h (side true h)

theorem locate_eq_none {a : Nat} {n : PatriciaNode α} (outside : a ∉ n.addrs)
    (path : List (Frame α))
    : locate a n path = none := by
  cases h : locate a n path with
  | none => rfl
  | some z =>
      obtain ⟨_, within, bit, pfx, data, l, r, node_eq⟩ := locate_some h
      exact absurd (within.collect_subset _ a (by simp [node_eq, collect])) outside

/-- With distinct addresses a pointer to a subtree's node leads to that subtree. -/
theorem Within.locate {a bit : Nat} {pfx : Option Prefix} {data : Option α}
    {l r n : PatriciaNode α} (h : Within (node a bit pfx data l r) n)
    (distinct : n.addrs.Nodup) (path : List (Frame α))
    : ∃ above, Lixy.locate a n path = some ⟨node a bit pfx data l r, above⟩ := by
  have inside {m : PatriciaNode α} (hm : Within (node a bit pfx data l r) m) : a ∈ m.addrs :=
    hm.collect_subset _ a (by simp [collect])
  induction n generalizing path with
  | null => exact h.elim
  | node a' bit' pfx' data' l' r' ihl ihr =>
      rw [addrs_node, List.nodup_cons, List.mem_append, not_or, List.nodup_append] at distinct
      obtain ⟨⟨notL, notR⟩, distinctL, distinctR, apart⟩ := distinct
      rcases h with same | h | h
      · obtain ⟨rfl, rfl, rfl, rfl, rfl, rfl⟩ := PatriciaNode.node.inj same
        exact ⟨path, by simp [Lixy.locate]⟩
      · have ne : a' ≠ a := fun same => notL (same ▸ inside h)
        obtain ⟨above, found⟩ := ihl h distinctL (⟨a', bit', pfx', data', false, r'⟩ :: path)
        exact ⟨above, by simp [Lixy.locate, ne, found]⟩
      · have ne : a' ≠ a := fun same => notR (same ▸ inside h)
        obtain ⟨above, found⟩ := ihr h distinctR (⟨a', bit', pfx', data', true, l'⟩ :: path)
        have notLeft : a ∉ l'.addrs := fun left => apart a left a (inside h) rfl
        exact ⟨above, by simp [Lixy.locate, ne, locate_eq_none notLeft, found]⟩

-----------------------------------------------------------------------------------------
-- Subtrees beside a position
-----------------------------------------------------------------------------------------

/-- What hangs beside a path stays in the tree whatever is plugged in. -/
theorem within_plug {sub n : PatriciaNode α} (h : Within sub n) (path : List (Frame α))
    : Within sub (plug n path) := by
  induction path generalizing n with
  | nil => exact h
  | cons f path ih =>
      refine ih ?_
      unfold Frame.fill
      split
      · exact Or.inr (Or.inr h)
      · exact Or.inr (Or.inl h)

theorem within_beside {sub : PatriciaNode α} {f : Frame α} {path : List (Frame α)}
    (hf : f ∈ path) (h : Within sub f.sibling) (n : PatriciaNode α)
    : Within sub (plug n path) := by
  induction path generalizing n with
  | nil => cases hf
  | cons g path ih =>
      rcases List.mem_cons.mp hf with rfl | hf
      · refine within_plug ?_ path
        unfold Frame.fill
        split
        · exact Or.inr (Or.inl h)
        · exact Or.inr (Or.inr h)
      · exact ih hf (g.fill n)

/-- A subtree that does not contain the node at a position lies in that node's children or
beside the path above it.
-/
theorem within_cases {sub : PatriciaNode α} {a bit : Nat} {pfx : Option Prefix}
    {data : Option α} {l r : PatriciaNode α} {path : List (Frame α)}
    (h : Within sub (plug (node a bit pfx data l r) path)) (outside : a ∉ sub.addrs)
    : (Within sub l ∨ Within sub r) ∨ ∃ f ∈ path, Within sub f.sibling := by
  have climb (n : PatriciaNode α) (path : List (Frame α)) (inside : a ∈ n.addrs)
      (h : Within sub (plug n path)) : Within sub n ∨ ∃ f ∈ path, Within sub f.sibling := by
    induction path generalizing n with
    | nil => exact Or.inl h
    | cons f path ih =>
        have filled : a ∈ (f.fill n).addrs :=
          (fill_collect _ f n).mem_iff.mpr (List.mem_append_left _ inside)
        rcases ih (f.fill n) filled h with h | ⟨g, hg, h⟩
        · unfold Frame.fill at h filled
          split at h
          · rcases h with rfl | h | h
            · exact absurd (by simp [addrs_node, inside]) outside
            · exact Or.inr ⟨f, by simp, h⟩
            · exact Or.inl h
          · rcases h with rfl | h | h
            · exact absurd (by simp [addrs_node, inside]) outside
            · exact Or.inl h
            · exact Or.inr ⟨f, by simp, h⟩
        · exact Or.inr ⟨g, List.mem_cons_of_mem _ hg, h⟩
  rcases climb _ path (by simp [addrs_node]) h with h | h
  · rcases h with rfl | h
    · exact absurd (by simp [addrs_node]) outside
    · exact Or.inl h
  · exact Or.inr h

-----------------------------------------------------------------------------------------
-- Subtrees that a change of one node keeps
-----------------------------------------------------------------------------------------

/-- What a change of the node at `a` leaves in the tree: that node unless it is freed,
everything below it and everything away from it.
-/
structure Keeps (before after : PatriciaNode α) (a : Nat) (l r : PatriciaNode α) (freed : Bool)
    : Prop where
  stays : freed = false → ∃ bit pfx data, Within (node a bit pfx data l r) after
  gone : freed = true → a ∉ after.addrs
  below : ∀ sub, Within sub l ∨ Within sub r → Within sub after
  beside : ∀ sub, Within sub before → a ∉ sub.addrs → Within sub after

/-- A tree that does not change keeps everything. -/
theorem Keeps.refl {t : PatriciaNode α} {a bit : Nat} {pfx : Option Prefix} {data : Option α}
    {l r : PatriciaNode α} (within : Within (node a bit pfx data l r) t)
    : Keeps t t a l r false where
  stays := fun _ => ⟨bit, pfx, data, within⟩
  gone := nofun
  below := fun _ h => within.below h
  beside := fun _ h _ => h

/-- Two changes in a row keep what both keep. -/
theorem Keeps.trans {before middle after : PatriciaNode α} {a : Nat}
    {l r : PatriciaNode α} {freed : Bool} (h : Keeps before middle a l r false)
    (h' : Keeps middle after a l r freed)
    : Keeps before after a l r freed where
  stays := h'.stays
  gone := h'.gone
  below := h'.below
  beside := fun sub within outside => h'.beside sub (h.beside sub within outside) outside

-----------------------------------------------------------------------------------------
-- One node for each key
-----------------------------------------------------------------------------------------

/-- Reading off a tree and then mapping is reading off the mapped. -/
theorem collect_map {γ δ : Type} (f : Nat → Option Prefix → Option α → List γ) (g : γ → δ)
    (n : PatriciaNode α)
    : (n.collect f).map g = n.collect (fun a pfx data => (f a pfx data).map g) := by
  induction n with
  | null => rfl
  | node a bit pfx data l r ihl ihr => simp [collect, ihl, ihr]

theorem Loc.within {z : Loc α} (h : z.node ≠ null) : Within z.node z.head :=
  within_plug (Within.self h) z.path

/-- In a tree in order the key of an entry determines the node that carries it. -/
theorem TreeOk.node_unique {t : PatriciaTree α} (ok : TreeOk t) {z z' : Loc α}
    {e e' : Prefix × α} (head : z.head = t.head) (head' : z'.head = t.head)
    (holds : z.Holds e) (holds' : z'.Holds e') (same : e.1.key = e'.1.key)
    : z.node = z'.node := by
  obtain ⟨a, bit, l, r, node_eq⟩ := holds
  obtain ⟨a', bit', l', r', node_eq'⟩ := holds'
  let located (addr : Nat) (pfx : Option Prefix) (data : Option α) : List ((Prefix × α) × Nat) :=
    (nodeEntry pfx data).map (fun e => (e, addr))
  have mem : (e, a) ∈ t.head.collect located := by
    rw [← head, (head_collect_of_node located node_eq).mem_iff]
    simp [located, nodeEntry]
  have mem' : (e', a') ∈ t.head.collect located := by
    rw [← head', (head_collect_of_node located node_eq').mem_iff]
    simp [located, nodeEntry]
  have forget : (t.head.collect located).map (fun x => x.1.1.key)
      = t.head.entries.map (fun e => e.1.key) := by
    rw [collect_map, PatriciaNode.entries, collect_map]
    congr 1
    funext addr pfx data
    simp [located]
  have keys : ((t.head.collect located).map (fun x => x.1.1.key)).Nodup :=
    forget ▸ ok.wf.keys_nodup
  obtain ⟨rfl, rfl⟩ := Prod.mk.inj (List.inj_on_of_nodup_map keys mem mem' same)
  have within := Loc.within (z := z) (by simp [node_eq])
  have within' := Loc.within (z := z') (by simp [node_eq'])
  rw [node_eq, head] at within
  rw [node_eq', head'] at within'
  obtain ⟨_, found⟩ := within.locate ok.distinct []
  obtain ⟨_, found'⟩ := within'.locate ok.distinct []
  rw [node_eq, node_eq']
  exact congrArg Loc.node (Option.some.inj (found.symm.trans found'))

end Lixy
