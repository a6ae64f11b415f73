import Lixy.Patricia.Strays

/-! The shape of a patricia tree. A well-formed tree is determined by what it carries, up to
the addresses of its nodes: a node stands where its own key ends or where the keys below part.
-/

namespace Lixy

open PatriciaNode

variable {α : Type}

/-- The tree with no addresses of nodes. -/
def PatriciaNode.unaddressed : PatriciaNode α → PatriciaNode α
  | null => null
  | node _ bit pfx data l r => node 0 bit pfx data l.unaddressed r.unaddressed

-----------------------------------------------------------------------------------------
-- Where a node stands
-----------------------------------------------------------------------------------------

section

variable {k k' : List Bool} {n n' : PatriciaNode α} {a bit : Nat} {pfx : Option Prefix}
  {data : Option α} {l r : PatriciaNode α}

/-- A key that extends the request is not empty. -/
theorem ne_nil_of_append_covers {b : Bool} (below : k ++ [b] <+: k') : k' ≠ [] := by
  rintro rfl
  simp at below

/-- A side that is there has an entry. -/
theorem Hangs.exists_entry {b : Bool} (h : Hangs (k ++ [b]) n) (present : n ≠ null)
    : ∃ e, e ∈ n.entries := by
  obtain ⟨kc, below, hc⟩ := h.rooted present
  exact hc.exists_entry (ne_nil_of_append_covers below)

/-- A node is there for its own entry, for the data of the head, or because keys part. -/
theorem Rooted.reason (h : Rooted k n)
    : (∃ e ∈ n.entries, e.1.key = k)
      ∨ (k = [] ∧ n.stray ≠ none)
      ∨ ∀ b, ∃ e ∈ n.entries, k ++ [b] <+: e.1.key := by
  cases n with
  | null => exact h.elim
  | node a bit pfx data l r =>
      cases pfx with
      | some p =>
          obtain ⟨own, carries⟩ := h.1.own p rfl
          obtain ⟨d, rfl⟩ := Option.isSome_iff_exists.mp carries
          exact Or.inl ⟨(p, d), by simp [entries_node, nodeEntry], own⟩
      | none =>
          rcases h.1.glue rfl with ⟨zero, carries⟩ | ⟨_, left, right⟩
          · refine Or.inr (Or.inl ⟨List.length_eq_zero_iff.mp (h.1.keyLength.trans zero), ?_⟩)
            exact Option.isSome_iff_ne_none.mp carries
          · refine Or.inr (Or.inr fun b => ?_)
            have present : PatriciaNode.side b l r ≠ null := by
              cases b
              · exact left
              · exact right
            obtain ⟨e, mem⟩ := (h.side b).exists_entry present
            exact ⟨e, (mem_entries_side b).mpr (Or.inr (Or.inl mem)), (h.side b).key_below mem⟩

/-- The key of a tree covers that of one whose contents it has. -/
theorem Rooted.key_covers (h : Rooted k n) (h' : Rooted k' n')
    (entries : ∀ e ∈ n.entries, e ∈ n'.entries) (stray : n.stray ≠ none → n'.stray ≠ none)
    : k' <+: k := by
  rcases h.reason with ⟨e, mem, rfl⟩ | ⟨_, carries⟩ | part
  · exact h'.key_below (entries e mem)
  · have root : k' = [] := by
      by_contra deep
      exact stray carries (h'.stray_none deep)
    rw [root]
    exact List.nil_prefix
  · obtain ⟨e, mem, below⟩ := part false
    have above : k' <+: e.1.key := h'.key_below (entries e mem)
    rcases List.prefix_or_prefix_of_prefix above ((List.prefix_append k _).trans below)
      with covers | ⟨rest, longer⟩
    · exact covers
    · -- a longer key would be on one side of the bit in which the keys part
      cases rest with
      | nil => rw [← longer, List.append_nil]
      | cons b rest =>
          obtain ⟨other, mem', below'⟩ := part (!b)
          have turned : k ++ [b] <+: k' := ⟨rest, by rw [← longer, List.append_assoc]; rfl⟩
          exact absurd below' (not_both_sides (turned.trans (h'.key_below (entries other mem'))))

/-- The entry of a node itself is the one with its key. -/
theorem Rooted.mem_own (h : Rooted k (node a bit pfx data l r)) {e : Prefix × α}
    : e ∈ nodeEntry pfx data ↔ e ∈ (node a bit pfx data l r).entries ∧ e.1.key = k := by
  constructor
  · intro own
    exact ⟨(mem_entries_side true).mpr (Or.inl own), (h.1.own e.1 (mem_nodeEntry.mp own).1).1⟩
  · rintro ⟨mem, rfl⟩
    rcases (mem_entries_side true).mp mem with own | below | below
    · exact own
    · exact absurd ((h.side true).key_below below) not_append_prefix
    · exact absurd ((h.side false).key_below below) not_append_prefix

/-- The entries on one side are those whose keys turn there. -/
theorem Rooted.mem_side (h : Rooted k (node a bit pfx data l r)) (b : Bool) {e : Prefix × α}
    : e ∈ (PatriciaNode.side b l r).entries
      ↔ e ∈ (node a bit pfx data l r).entries ∧ k ++ [b] <+: e.1.key := by
  constructor
  · intro mem
    exact ⟨(mem_entries_side b).mpr (Or.inr (Or.inl mem)), (h.side b).key_below mem⟩
  · rintro ⟨mem, turns⟩
    rcases (mem_entries_side b).mp mem with own | here | other
    · rw [(h.mem_own.mp own).2] at turns
      exact absurd turns not_append_prefix
    · exact here
    · exact absurd ((h.side (!b)).key_below other) (not_both_sides turns)

/-- A node's own prefix and data are told by the entries and the stray. -/
theorem Rooted.own_eq {a' bit' : Nat} {pfx' : Option Prefix} {data' : Option α}
    {l' r' : PatriciaNode α} (h : Rooted k (node a bit pfx data l r))
    (h' : Rooted k (node a' bit' pfx' data' l' r'))
    (entries : ∀ e, e ∈ (node a bit pfx data l r).entries
      ↔ e ∈ (node a' bit' pfx' data' l' r').entries)
    (stray : (node a bit pfx data l r).stray = (node a' bit' pfx' data' l' r').stray)
    : pfx = pfx' ∧ data = data' := by
  have own (e : Prefix × α) : e ∈ nodeEntry pfx data ↔ e ∈ nodeEntry pfx' data' := by
    rw [h.mem_own, h'.mem_own, entries]
  cases pfx with
  | some p =>
      obtain ⟨d, rfl⟩ := Option.isSome_iff_exists.mp (h.1.own p rfl).2
      obtain ⟨rfl, rfl⟩ := mem_nodeEntry.mp ((own (p, d)).mp (mem_nodeEntry.mpr ⟨rfl, rfl⟩))
      exact ⟨rfl, rfl⟩
  | none =>
      cases pfx' with
      | some p =>
          obtain ⟨d, rfl⟩ := Option.isSome_iff_exists.mp (h'.1.own p rfl).2
          cases (mem_nodeEntry.mp ((own (p, d)).mpr (mem_nodeEntry.mpr ⟨rfl, rfl⟩))).1
      | none => exact ⟨rfl, stray⟩

end

-----------------------------------------------------------------------------------------
-- The same contents, the same shape
-----------------------------------------------------------------------------------------

/-- Well-formed subtrees with the same contents differ in addresses alone. By induction on
one of them; the keys of the two agree, and so do the entries on either side.
-/
theorem Rooted.unaddressed_eq {k k' : List Bool} {n n' : PatriciaNode α} (h : Rooted k n)
    (h' : Rooted k' n') (entries : ∀ e, e ∈ n.entries ↔ e ∈ n'.entries)
    (stray : n.stray = n'.stray)
    : n.unaddressed = n'.unaddressed := by
  induction n generalizing k k' n' with
  | null => exact h.elim
  | node a bit pfx data l r ihl ihr =>
      have covers : k' <+: k := h.key_covers h' (fun e => (entries e).mp) (stray ▸ id)
      have covered : k <+: k' := h'.key_covers h (fun e => (entries e).mpr) (stray ▸ id)
      obtain rfl : k = k' := covered.eq_of_length_le covers.length_le
      cases n' with
      | null => exact h'.elim
      | node a' bit' pfx' data' l' r' =>
          obtain ⟨rfl, rfl⟩ := h.own_eq h' entries stray
          obtain rfl : bit = bit' := h.1.keyLength.symm.trans h'.1.keyLength
          have sides (b : Bool) (e : Prefix × α) : e ∈ (PatriciaNode.side b l r).entries
              ↔ e ∈ (PatriciaNode.side b l' r').entries := by
            rw [h.mem_side, h'.mem_side, entries]
          have child (b : Bool)
              (ih : ∀ {k k' n'}, Rooted k (PatriciaNode.side b l r) → Rooted k' n'
                → (∀ e, e ∈ (PatriciaNode.side b l r).entries ↔ e ∈ n'.entries)
                → (PatriciaNode.side b l r).stray = n'.stray
                → (PatriciaNode.side b l r).unaddressed = n'.unaddressed)
              : (PatriciaNode.side b l r).unaddressed = (PatriciaNode.side b l' r').unaddressed := by
            rcases h.side b with absent | ⟨kc, below, hc⟩
            · rcases h'.side b with absent' | ⟨kc', below', hc'⟩
              · rw [absent, absent']
              · obtain ⟨e, mem⟩ := hc'.exists_entry (ne_nil_of_append_covers below')
                rw [← sides, absent] at mem
                cases mem
            · rcases h'.side b with absent' | ⟨kc', below', hc'⟩
              · obtain ⟨e, mem⟩ := hc.exists_entry (ne_nil_of_append_covers below)
                rw [sides, absent'] at mem
                cases mem
              · refine ih hc hc' (sides b) ?_
                rw [hc.stray_none (ne_nil_of_append_covers below),
                  hc'.stray_none (ne_nil_of_append_covers below')]
          have left : l.unaddressed = l'.unaddressed := child false ihl
          have right : r.unaddressed = r'.unaddressed := child true ihr
          rw [unaddressed, unaddressed, left, right]

/-- What a tree carries does not depend on addresses. -/
theorem unaddressed_collect {γ : Type} (f : Option Prefix → Option α → List γ)
    (n : PatriciaNode α)
    : n.unaddressed.collect (fun _ => f) = n.collect (fun _ => f) := by
  induction n with
  | null => rfl
  | node a bit pfx data l r ihl ihr => rw [unaddressed, collect, collect, ihl, ihr]

theorem unaddressed_outline (n : PatriciaNode α) : n.unaddressed.outline = n.outline := by
  have entries : n.unaddressed.entries = n.entries := unaddressed_collect nodeEntry n
  refine Outline.ext ?_ ?_
  · funext key
    change n.unaddressed.entries.find? _ = n.entries.find? _
    rw [entries]
  · cases n with
    | null => rfl
    | node a bit pfx data l r => cases pfx <;> rfl

/-- Well-formed trees have the same shape exactly when they carry the same. -/
theorem unaddressed_eq_iff {n n' : PatriciaNode α} (wf : WellFormed n) (wf' : WellFormed n')
    : n.unaddressed = n'.unaddressed ↔ n.outline = n'.outline := by
  constructor
  · intro same
    rw [← unaddressed_outline, same, unaddressed_outline]
  · intro same
    have store : n.store = n'.store := congrArg Outline.store same
    have stray : n.stray = n'.stray := congrArg Outline.stray same
    have entries (e : Prefix × α) : e ∈ n.entries ↔ e ∈ n'.entries := by
      have left := @Hangs.store_eq_some_iff _ _ _ wf e.1.key e
      have right := @Hangs.store_eq_some_iff _ _ _ wf' e.1.key e
      simp only [and_true] at left right
      rw [← left, ← right, store]
    have empty {m m' : PatriciaNode α} {k : List Bool} (hm : Rooted k m)
        (entries : ∀ e, e ∈ m.entries → e ∈ m'.entries) (stray : m.stray = m'.stray)
        : m' ≠ null := by
      rintro rfl
      rcases hm.reason with ⟨e, mem, _⟩ | ⟨_, carries⟩ | part
      · cases entries e mem
      · exact carries stray
      · obtain ⟨e, mem, _⟩ := part true
        cases entries e mem
    rcases wf with rfl | ⟨k, _, hn⟩
    · rcases wf' with rfl | ⟨k', _, hn'⟩
      · rfl
      · exact absurd rfl (empty hn' (fun e => (entries e).mpr) stray.symm)
    · rcases wf' with rfl | ⟨k', _, hn'⟩
      · exact absurd rfl (empty hn (fun e => (entries e).mp) stray)
      · exact hn.unaddressed_eq hn' entries stray

end Lixy
