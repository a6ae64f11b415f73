import Lixy.Patricia.Walks

/-! Walks that break off at some entries and so skip what lies below them: which of the stored
entries they reach.
-/

namespace Lixy

open PatriciaNode

variable {α : Type}

/-- The entry that a node carries, if it does. -/
def ownEntry : PatriciaNode α → List (Prefix × α)
  | .null => []
  | .node _ _ pfx data _ _ => nodeEntry pfx data

/-- The walk breaks off at the entries that `picks` picks. -/
def stopsAt (picks : Prefix × α → Bool) (n : PatriciaNode α) : Bool := (ownEntry n).any picks

/-- The entries that a walk reaches, in order. -/
def reached (picks : Prefix × α → Bool) (n : PatriciaNode α) : List (Prefix × α) :=
  (preorder (stopsAt picks) n).flatMap ownEntry

/-- No other entry of `stored` that is picked covers `e`. -/
def Unblocked (picks : Prefix × α → Bool) (stored : List (Prefix × α)) (e : Prefix × α) : Prop :=
  ∀ s ∈ stored, picks s = true → s.1.key <+: e.1.key → s.1.key = e.1.key

variable {picks : Prefix × α → Bool}

theorem reached_node (a bit : Nat) (pfx : Option Prefix) (data : Option α)
    (l r : PatriciaNode α)
    : reached picks (node a bit pfx data l r)
      = nodeEntry pfx data
        ++ (if (nodeEntry pfx data).any picks then [] else reached picks l ++ reached picks r) := by
  rw [reached, preorder, List.flatMap_cons, stopsAt]
  change nodeEntry pfx data ++ _ = _
  congr 1
  change (if (nodeEntry pfx data).any picks then [] else _).flatMap ownEntry = _
  split
  · rfl
  · exact List.flatMap_append

/-- Each entry is reached at most once, by induction on the tree. -/
theorem reached_sublist (n : PatriciaNode α) : (reached picks n).Sublist n.entries := by
  induction n with
  | null => exact List.Sublist.refl _
  | node a bit pfx data l r ihl ihr =>
      rw [reached_node, entries_node]
      refine (List.Sublist.refl _).append ?_
      split
      · exact List.nil_sublist _
      · exact ihl.append ihr

/-- A walk reaches the entries with no other picked entry above them. By induction on the
tree: a node covers all below it, and no entry of one side covers one of the other.
-/
theorem Rooted.mem_reached {k : List Bool} {n : PatriciaNode α} (h : Rooted k n)
    {e : Prefix × α}
    : e ∈ reached picks n ↔ e ∈ n.entries ∧ Unblocked picks n.entries e := by
  induction n generalizing k with
  | null => exact h.elim
  | node a bit pfx data l r ihl ihr =>
      have left : e ∈ reached picks l ↔ e ∈ l.entries ∧ Unblocked picks l.entries e := by
        rcases h.2.1 with rfl | ⟨kl, _, hl⟩
        · simp [reached, preorder]
        · exact ihl hl
      have right : e ∈ reached picks r ↔ e ∈ r.entries ∧ Unblocked picks r.entries e := by
        rcases h.2.2 with rfl | ⟨kr, _, hr⟩
        · simp [reached, preorder]
        · exact ihr hr
      have own {x : Prefix × α} (hx : x ∈ nodeEntry pfx data) : x.1.key = k :=
        (h.1.own x.1 (mem_nodeEntry.mp hx).1).1
      have inL {x : Prefix × α} (hx : x ∈ l.entries) : k ++ [false] <+: x.1.key :=
        (h.side false).key_below hx
      have inR {x : Prefix × α} (hx : x ∈ r.entries) : k ++ [true] <+: x.1.key :=
        (h.side true).key_below hx
      have stored {x : Prefix × α} : x ∈ (node a bit pfx data l r).entries
          ↔ x ∈ nodeEntry pfx data ∨ x ∈ l.entries ∨ x ∈ r.entries := by
        simp [entries_node]
      have self (he : e ∈ nodeEntry pfx data)
          : Unblocked picks (node a bit pfx data l r).entries e := by
        intro s hs _ covers
        rw [own he] at covers ⊢
        rcases stored.mp hs with hs | hs | hs
        · exact own hs
        · exact absurd ((inL hs).trans covers) not_append_prefix
        · exact absurd ((inR hs).trans covers) not_append_prefix
      rw [reached_node, List.mem_append, stored]
      by_cases stops : (nodeEntry pfx data).any picks = true
      · obtain ⟨s, hs, picked⟩ := List.any_eq_true.mp stops
        -- the picked entry covers both sides
        have blocked {b : Bool} (below : k ++ [b] <+: e.1.key)
            : ¬ Unblocked picks (node a bit pfx data l r).entries e := by
          intro unblocked
          have above := (List.prefix_append k [b]).trans below
          rw [← own hs] at above
          have same := unblocked s (stored.mpr (Or.inl hs)) picked above
          exact absurd (same ▸ own hs ▸ below) not_append_prefix
        rw [if_pos stops]
        constructor
        · rintro (he | none)
          · exact ⟨Or.inl he, self he⟩
          · cases none
        · rintro ⟨he | he | he, unblocked⟩
          · exact Or.inl he
          · exact absurd unblocked (blocked (inL he))
          · exact absurd unblocked (blocked (inR he))
      · have unpicked {x : Prefix × α} (hx : x ∈ nodeEntry pfx data) : picks x ≠ true :=
          fun picked => stops (List.any_eq_true.mpr ⟨x, hx, picked⟩)
        rw [if_neg stops, List.mem_append, left, right]
        constructor
        · rintro (he | ⟨he, unblocked⟩ | ⟨he, unblocked⟩)
          · exact ⟨Or.inl he, self he⟩
          · refine ⟨Or.inr (Or.inl he), ?_⟩
            intro s hs picked covers
            rcases stored.mp hs with hs | hs | hs
            · exact absurd picked (unpicked hs)
            · exact unblocked s hs picked covers
            · exact absurd ((inR hs).trans covers) (not_both_sides (inL he))
          · refine ⟨Or.inr (Or.inr he), ?_⟩
            intro s hs picked covers
            rcases stored.mp hs with hs | hs | hs
            · exact absurd picked (unpicked hs)
            · exact absurd ((inL hs).trans covers) (not_both_sides (inR he))
            · exact unblocked s hs picked covers
        · rintro ⟨he | he | he, unblocked⟩
          · exact Or.inl he
          · refine Or.inr (Or.inl ⟨he, fun s hs => unblocked s ?_⟩)
            exact stored.mpr (Or.inr (Or.inl hs))
          · refine Or.inr (Or.inr ⟨he, fun s hs => unblocked s ?_⟩)
            exact stored.mpr (Or.inr (Or.inr hs))

theorem Hangs.mem_reached {req : List Bool} {n : PatriciaNode α} (h : Hangs req n)
    {e : Prefix × α}
    : e ∈ reached picks n ↔ e ∈ n.entries ∧ Unblocked picks n.entries e := by
  rcases h with rfl | ⟨k, _, hn⟩
  · simp [reached, preorder]
  · exact hn.mem_reached

end Lixy
