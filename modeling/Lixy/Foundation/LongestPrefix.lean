import Mathlib.Data.List.Infix
import Mathlib.Data.Set.Insert
import Mathlib.Logic.Function.Basic

/-! Longest-prefix match over a partial store of finite keys, in abstract terms.
A concrete search structure is correct when it agrees with `best` on its own store.
-/

namespace LongestPrefix

variable {σ β : Type*}

/-- A store holds at most one value under each key. -/
abbrev Store (σ β : Type*) := List σ → Option β

/-- `key` is stored with `value`, covers `query`, and no longer stored key covers it. -/
structure Longest (store : Store σ β) (query key : List σ) (value : β) : Prop where
  covers : key <+: query
  stored : store key = some value
  longest : ∀ other, other <+: query → (store other).isSome → other.length ≤ key.length

/-- The longest stored key among the first `n + 1` prefixes of `query`. -/
def bestUpTo (store : Store σ β) (query : List σ) : Nat → Option (List σ × β)
  | 0 => (store []).map (fun value => ([], value))
  | n + 1 =>
      match store (query.take (n + 1)) with
      | some value => some (query.take (n + 1), value)
      | none => bestUpTo store query n

/-- The stored key and value that match `query` best. -/
def best (store : Store σ β) (query : List σ) : Option (List σ × β) :=
  bestUpTo store query query.length

-----------------------------------------------------------------------------------------
-- Best matches are exactly the longest covering keys
-----------------------------------------------------------------------------------------

/-- Two keys covering one query are the same when their lengths agree. -/
theorem eq_of_covers {query left right : List σ} (hl : left <+: query)
    (hr : right <+: query) (same : left.length = right.length)
    : left = right := by
  rw [List.prefix_iff_eq_take.mp hl, List.prefix_iff_eq_take.mp hr, same]

/-- A bounded search that fails has seen no stored key, by induction on the bound. -/
theorem bestUpTo_eq_none {store : Store σ β} {query : List σ} {n : Nat}
    (bound : n ≤ query.length)
    : bestUpTo store query n = none
      ↔ ∀ key, key <+: query → key.length ≤ n → store key = none := by
  induction n with
  | zero =>
      simp only [bestUpTo, Option.map_eq_none_iff, Nat.le_zero, List.length_eq_zero_iff]
      exact ⟨fun h key _ empty => empty ▸ h, fun h => h [] (List.nil_prefix) rfl⟩
  | succ n ih =>
      have top : (query.take (n + 1)).length = n + 1 := List.length_take_of_le bound
      simp only [bestUpTo]
      constructor
      · intro h key covers le
        cases found : store (query.take (n + 1)) with
        | some value => simp [found] at h
        | none =>
            simp only [found] at h
            rcases Nat.lt_or_eq_of_le le with lt | eq
            · exact (ih (by omega)).mp h key covers (by omega)
            · rwa [eq_of_covers covers (List.take_prefix (n + 1) query) (by omega)]
      · intro h
        rw [h _ (List.take_prefix _ _) (by omega)]
        exact (ih (by omega)).mpr (fun key covers le => h key covers (by omega))

/-- A bounded search returns the longest stored key within its bound. -/
theorem bestUpTo_eq_some {store : Store σ β} {query key : List σ} {value : β} {n : Nat}
    (bound : n ≤ query.length)
    : bestUpTo store query n = some (key, value)
      ↔ key <+: query
        ∧ key.length ≤ n
        ∧ store key = some value
        ∧ ∀ other, other <+: query → other.length ≤ n → (store other).isSome
          → other.length ≤ key.length := by
  induction n with
  | zero =>
      simp only [bestUpTo, Option.map_eq_some_iff, Prod.mk.injEq, Nat.le_zero,
        List.length_eq_zero_iff]
      constructor
      · rintro ⟨v, stored, rfl, rfl⟩
        exact ⟨List.nil_prefix, rfl, stored, by rintro _ _ rfl _; exact Nat.le_refl _⟩
      · rintro ⟨_, rfl, stored, _⟩
        exact ⟨value, stored, rfl, rfl⟩
  | succ n ih =>
      have top : (query.take (n + 1)).length = n + 1 := List.length_take_of_le bound
      simp only [bestUpTo]
      cases found : store (query.take (n + 1)) with
      | some v =>
          simp only [Option.some.injEq, Prod.mk.injEq]
          constructor
          · rintro ⟨rfl, rfl⟩
            exact ⟨List.take_prefix _ _, by omega, found, by intro _ _ le _; omega⟩
          · rintro ⟨covers, le, stored, longest⟩
            have ge := longest _ (List.take_prefix (n + 1) query) (by omega) (by simp [found])
            obtain rfl := eq_of_covers covers (List.take_prefix (n + 1) query) (by omega)
            exact ⟨rfl, Option.some.inj (found.symm.trans stored)⟩
      | none =>
          rw [ih (by omega)]
          constructor
          · rintro ⟨covers, le, stored, longest⟩
            refine ⟨covers, by omega, stored, ?_⟩
            intro other oc ol os
            rcases Nat.lt_or_eq_of_le ol with lt | eq
            · exact longest other oc (by omega) os
            · rw [eq_of_covers oc (List.take_prefix (n + 1) query) (by omega), found] at os
              simp at os
          · rintro ⟨covers, le, stored, longest⟩
            refine ⟨covers, ?_, stored, fun other oc ol os => longest other oc (by omega) os⟩
            rcases Nat.lt_or_eq_of_le le with lt | eq
            · omega
            · rw [eq_of_covers covers (List.take_prefix (n + 1) query) (by omega), found] at stored
              simp at stored

/-- `best` finds `key` exactly when it is the longest match. -/
theorem best_eq_some_iff {store : Store σ β} {query key : List σ} {value : β}
    : best store query = some (key, value) ↔ Longest store query key value := by
  rw [best, bestUpTo_eq_some (Nat.le_refl _)]
  constructor
  · rintro ⟨covers, _, stored, longest⟩
    exact ⟨covers, stored, fun other oc os => longest other oc oc.length_le os⟩
  · rintro ⟨covers, stored, longest⟩
    exact ⟨covers, covers.length_le, stored, fun other oc _ os => longest other oc os⟩

/-- `best` fails exactly when no stored key covers the query. -/
theorem best_eq_none_iff {store : Store σ β} {query : List σ}
    : best store query = none ↔ ∀ key, key <+: query → store key = none := by
  rw [best, bestUpTo_eq_none (Nat.le_refl _)]
  exact ⟨fun h key covers => h key covers covers.length_le, fun h key covers _ => h key covers⟩

/-- A stored key is its own best match. -/
theorem best_self {store : Store σ β} {key : List σ} {value : β}
    (stored : store key = some value)
    : best store key = some (key, value) :=
  best_eq_some_iff.mpr ⟨List.prefix_rfl, stored, fun _ covers _ => covers.length_le⟩

/-- The best match of a query is that of every key between the two. -/
theorem best_of_covers {store : Store σ β} {query between key : List σ} {value : β}
    (covers : between <+: query) (found : best store query = some (key, value))
    (short : key.length ≤ between.length)
    : best store between = some (key, value) := by
  obtain ⟨above, stored, longest⟩ := best_eq_some_iff.mp found
  refine best_eq_some_iff.mpr ⟨List.prefix_of_prefix_length_le above covers short, stored, ?_⟩
  exact fun other below there => longest other (below.trans covers) there

/-- Two stores that agree on the keys covering a query have the same best match. -/
theorem best_congr {left right : Store σ β} {query : List σ}
    (same : ∀ key, key <+: query → left key = right key)
    : best left query = best right query := by
  cases h : best left query with
  | none =>
      rw [best_eq_none_iff] at h
      exact (best_eq_none_iff.mpr (fun key covers => by rw [← same key covers, h key covers])).symm
  | some found =>
      obtain ⟨key, value⟩ := found
      obtain ⟨covers, stored, longest⟩ := best_eq_some_iff.mp h
      refine (best_eq_some_iff.mpr ⟨covers, by rw [← same key covers, stored], ?_⟩).symm
      intro other oc os
      exact longest other oc (by rw [same other oc]; exact os)

/-- Best matches do not look at values. -/
theorem best_map {γ : Type*} (f : β → γ) (store : Store σ β) (query : List σ)
    : best (fun key => (store key).map f) query
      = (best store query).map fun found => (found.1, f found.2) := by
  cases h : best store query with
  | none =>
      rw [best_eq_none_iff] at h
      exact best_eq_none_iff.mpr (fun key covers => by rw [h key covers]; rfl)
  | some found =>
      obtain ⟨covers, stored, longest⟩ := best_eq_some_iff.mp h
      refine best_eq_some_iff.mpr ⟨covers, by rw [stored]; rfl, ?_⟩
      intro other oc os
      exact longest other oc (by simpa using os)

/-- The longest stored key that covers `query` and is not `query` itself. -/
def bestProper (store : Store σ β) (query : List σ) : Option (List σ × β) :=
  if query = [] then none else best store query.dropLast

/-- The proper prefixes of a nonempty list are the prefixes of the list without its last. -/
theorem prefix_dropLast_iff {query key : List σ} (nonempty : query ≠ [])
    : key <+: query.dropLast ↔ key <+: query ∧ key ≠ query := by
  have length : query.length ≠ 0 := fun zero => nonempty (List.length_eq_zero_iff.mp zero)
  constructor
  · intro covers
    refine ⟨covers.trans query.dropLast_prefix, ?_⟩
    rintro rfl
    have le := covers.length_le
    rw [List.length_dropLast] at le
    omega
  · rintro ⟨covers, proper⟩
    refine List.prefix_of_prefix_length_le covers query.dropLast_prefix ?_
    have ne : key.length ≠ query.length := fun same => proper (covers.eq_of_length same)
    have le := covers.length_le
    rw [List.length_dropLast]
    omega

/-- `bestProper` finds `key` exactly when it is the longest of the proper matches. -/
theorem bestProper_eq_some_iff {store : Store σ β} {query key : List σ} {value : β}
    : bestProper store query = some (key, value)
      ↔ key <+: query ∧ key ≠ query ∧ store key = some value
        ∧ ∀ other, other <+: query → other ≠ query → (store other).isSome
          → other.length ≤ key.length := by
  unfold bestProper
  split
  · next empty =>
      subst empty
      constructor
      · nofun
      · rintro ⟨covers, proper, _⟩
        exact (proper (List.prefix_nil.mp covers)).elim
  · next nonempty =>
      rw [best_eq_some_iff]
      constructor
      · rintro ⟨covers, stored, longest⟩
        obtain ⟨covers, proper⟩ := (prefix_dropLast_iff nonempty).mp covers
        exact ⟨covers, proper, stored,
          fun other oc ne => longest other ((prefix_dropLast_iff nonempty).mpr ⟨oc, ne⟩)⟩
      · rintro ⟨covers, proper, stored, longest⟩
        refine ⟨(prefix_dropLast_iff nonempty).mpr ⟨covers, proper⟩, stored, ?_⟩
        intro other oc
        obtain ⟨oc, ne⟩ := (prefix_dropLast_iff nonempty).mp oc
        exact longest other oc ne

-----------------------------------------------------------------------------------------
-- Storing and erasing one key
-----------------------------------------------------------------------------------------

variable [DecidableEq σ]

/-- Store `value` under `key`, replacing what was there. -/
def insert (store : Store σ β) (key : List σ) (value : β) : Store σ β :=
  Function.update store key (some value)

/-- Forget `key`. -/
def erase (store : Store σ β) (key : List σ) : Store σ β :=
  Function.update store key none

@[simp]
theorem insert_self (store : Store σ β) (key : List σ) (value : β)
    : insert store key value key = some value := by
  simp [insert]

theorem insert_of_ne (store : Store σ β) {key other : List σ} (value : β) (ne : other ≠ key)
    : insert store key value other = store other := by
  simp [insert, ne]

@[simp]
theorem erase_self (store : Store σ β) (key : List σ) : erase store key key = none := by
  simp [erase]

theorem erase_of_ne (store : Store σ β) {key other : List σ} (ne : other ≠ key)
    : erase store key other = store other := by
  simp [erase, ne]

@[simp]
theorem erase_insert (store : Store σ β) (key : List σ) (value : β)
    : erase (insert store key value) key = erase store key := by
  simp [insert, erase]

-----------------------------------------------------------------------------------------
-- Storing several keys one after the other
-----------------------------------------------------------------------------------------

/-- Store values in order. -/
def insertAll (store : Store σ β) (values : List (List σ × β)) : Store σ β :=
  values.foldl (fun store value => insert store value.1 value.2) store

/-- The last value given for `key`. -/
def lastAt : List (List σ × β) → List σ → Option β
  | [], _ => none
  | value :: rest, key => (lastAt rest key).or (if value.1 = key then some value.2 else none)

@[simp]
theorem insertAll_nil (store : Store σ β) : insertAll store [] = store := rfl

theorem insertAll_append (store : Store σ β) (values more : List (List σ × β))
    : insertAll store (values ++ more) = insertAll (insertAll store values) more :=
  List.foldl_append

/-- Under each key lies the last value given for it, by induction on the values. -/
theorem insertAll_apply (store : Store σ β) (values : List (List σ × β)) (key : List σ)
    : insertAll store values key = (lastAt values key).or (store key) := by
  induction values generalizing store with
  | nil => rfl
  | cons value rest ih =>
      have first : insert store value.1 value.2 key
          = (if value.1 = key then some value.2 else none).or (store key) := by
        by_cases same : value.1 = key
        · rw [if_pos same, ← same, insert_self, Option.some_or]
        · rw [if_neg same, insert_of_ne store _ (Ne.symm same), Option.none_or]
      rw [lastAt, Option.or_assoc, ← first]
      exact ih _

/-- Storing values changes nothing exactly when the last one for each key is there already. -/
theorem insertAll_eq_self_iff {store : Store σ β} {values : List (List σ × β)}
    : insertAll store values = store
      ↔ ∀ key value, lastAt values key = some value → store key = some value := by
  constructor
  · intro same key value last
    rw [← same, insertAll_apply, last, Option.some_or]
  · intro there
    funext key
    rw [insertAll_apply]
    cases last : lastAt values key with
    | none => exact Option.none_or
    | some value => rw [Option.some_or, there key value last]

-----------------------------------------------------------------------------------------
-- Best matches of changed stores
-----------------------------------------------------------------------------------------

/-- After an insertion at `key`, a query not covered by `key` matches as before. -/
theorem best_insert_of_not_covers (store : Store σ β) {key query : List σ} (value : β)
    (h : ¬ key <+: query)
    : best (insert store key value) query = best store query :=
  best_congr (fun _ covers => insert_of_ne store value (fun same => h (same ▸ covers)))

/-- An insertion leaves a strictly longer best match in place. -/
theorem best_insert_of_longer {store : Store σ β} {key query found : List σ} {v : β}
    (value : β) (h : best store query = some (found, v)) (longer : key.length < found.length)
    : best (insert store key value) query = some (found, v) := by
  obtain ⟨covers, stored, longest⟩ := best_eq_some_iff.mp h
  refine best_eq_some_iff.mpr ⟨covers, ?_, ?_⟩
  · rw [insert_of_ne store value (fun same => by simp [same] at longer), stored]
  · intro other oc os
    by_cases same : other = key
    · subst same; omega
    · rw [insert_of_ne store value same] at os
      exact longest other oc os

/-- An inserted key that covers the query becomes its match when no longer key does. -/
theorem best_insert_of_covers {store : Store σ β} {key query : List σ} (value : β)
    (covers : key <+: query)
    (shorter : ∀ found v, best store query = some (found, v) → found.length ≤ key.length)
    : best (insert store key value) query = some (key, value) := by
  refine best_eq_some_iff.mpr ⟨covers, insert_self store key value, ?_⟩
  intro other oc os
  by_cases same : other = key
  · rw [same]
  · rw [insert_of_ne store value same] at os
    cases h : best store query with
    | none =>
        rw [best_eq_none_iff] at h
        simp [h other oc] at os
    | some found =>
        obtain ⟨longestKey, v⟩ := found
        exact Nat.le_trans ((best_eq_some_iff.mp h).longest other oc os) (shorter _ _ h)

-----------------------------------------------------------------------------------------
-- What the stored values contribute to a set
-----------------------------------------------------------------------------------------

section

variable {γ : Type*} (proj : β → Option γ)

/-- The contributions of all stored values. -/
def image (store : Store σ β) : Set γ :=
  {c | ∃ key value, store key = some value ∧ proj value = some c}

variable {proj} {store : Store σ β} {key : List σ} {value : β} {c : γ}

/-- Forgetting a value without a contribution changes nothing. -/
theorem image_erase_of_none (none : ∀ v, store key = some v → proj v = none)
    : image proj (erase store key) = image proj store := by
  ext c
  constructor
  · rintro ⟨other, v, stored, contributes⟩
    by_cases same : other = key
    · simp [same] at stored
    · rw [erase_of_ne store same] at stored
      exact ⟨other, v, stored, contributes⟩
  · rintro ⟨other, v, stored, contributes⟩
    have ne : other ≠ key := by
      rintro rfl
      simp [none v stored] at contributes
    exact ⟨other, v, by rw [erase_of_ne store ne, stored], contributes⟩

/-- Forgetting the only value that contributes `c` takes out `c`. -/
theorem image_erase_of_unique (stored : store key = some value) (contributes : proj value = some c)
    (unique : ∀ other v, store other = some v → proj v = some c → other = key)
    : image proj (erase store key) = image proj store \ {c} := by
  ext d
  constructor
  · rintro ⟨other, v, there, contributes'⟩
    have ne : other ≠ key := by
      rintro rfl
      simp at there
    rw [erase_of_ne store ne] at there
    refine ⟨⟨other, v, there, contributes'⟩, ?_⟩
    rintro rfl
    exact ne (unique other v there contributes')
  · rintro ⟨⟨other, v, there, contributes'⟩, apart⟩
    have ne : other ≠ key := by
      rintro rfl
      obtain rfl : v = value := Option.some.inj (there.symm.trans stored)
      exact apart (Option.some.inj (contributes'.symm.trans contributes))
    exact ⟨other, v, by rw [erase_of_ne store ne, there], contributes'⟩

/-- Storing a value whose contribution is that of the value it replaces changes nothing; no
value contributes as one without a contribution.
-/
theorem image_insert_of_same
    (same : ∀ c, proj value = some c ↔ ∃ v, store key = some v ∧ proj v = some c)
    : image proj (insert store key value) = image proj store := by
  ext c
  constructor
  · rintro ⟨other, v, there, contributes⟩
    by_cases here : other = key
    · subst here
      obtain rfl : value = v := by simpa using there
      obtain ⟨v', stored, contributes'⟩ := (same c).mp contributes
      exact ⟨_, v', stored, contributes'⟩
    · rw [insert_of_ne store value here] at there
      exact ⟨other, v, there, contributes⟩
  · rintro ⟨other, v, there, contributes⟩
    by_cases here : other = key
    · subst here
      exact ⟨other, value, insert_self store other value, (same c).mpr ⟨v, there, contributes⟩⟩
    · exact ⟨other, v, by rw [insert_of_ne store value here, there], contributes⟩

/-- Storing a value that contributes `c` over one that contributes nothing else adds `c`. -/
theorem image_insert_of_some (contributes : proj value = some c)
    (old : ∀ v d, store key = some v → proj v = some d → d = c)
    : image proj (insert store key value) = image proj store ∪ {c} := by
  ext d
  constructor
  · rintro ⟨other, v, there, contributes'⟩
    by_cases here : other = key
    · subst here
      obtain rfl : value = v := by simpa using there
      exact Or.inr (Option.some.inj (contributes'.symm.trans contributes))
    · rw [insert_of_ne store value here] at there
      exact Or.inl ⟨other, v, there, contributes'⟩
  · rintro (⟨other, v, there, contributes'⟩ | rfl)
    · by_cases here : other = key
      · subst here
        obtain rfl := old v d there contributes'
        exact ⟨other, value, insert_self store other value, contributes⟩
      · exact ⟨other, v, by rw [insert_of_ne store value here, there], contributes'⟩
    · exact ⟨key, value, insert_self store key value, contributes⟩

end

end LongestPrefix
