import Mathlib.Data.List.Nodup
import Mathlib.Logic.Function.Basic

/-! Journals of keyed registrations: what stands after a sequence of creations, deletions and
assignments, told from the whole journal and told step by step.
-/

namespace Journals

variable {κ φ ν : Type} [DecidableEq κ] [DecidableEq φ]

/-- One change of what is registered. -/
inductive Entry (κ φ ν : Type)
  | create (key : κ)
  | delete (key : κ)
  | assign (key : κ) (field : φ) (value : ν)

/-- The entry begins or ends a registration of the key. -/
def Entry.turns (key : κ) : Entry κ φ ν → Bool
  | create other => other = key
  | delete other => other = key
  | assign .. => false

/-- The value that the entry assigns to a field of the key. -/
def Entry.assigned (key : κ) (field : φ) : Entry κ φ ν → Option ν
  | assign other field' value => if other = key ∧ field' = field then some value else none
  | _ => none

/-- The value last assigned to a field of the key. -/
def lastValue (unset : ν) (key : κ) (field : φ) (later : List (Entry κ φ ν)) : ν :=
  (later.reverse.findSome? (Entry.assigned key field)).getD unset

/-- The keys whose last creation no deletion follows, in the order of these creations, each
with the values last assigned to its fields since.
-/
def standing (unset : ν) : List (Entry κ φ ν) → List (κ × (φ → ν))
  | [] => []
  | .create key :: later =>
      if later.any (Entry.turns key) then
        standing unset later
      else
        (key, fun field => lastValue unset key field later) :: standing unset later
  | _ :: later => standing unset later

section

variable {unset : ν} {journal : List (Entry κ φ ν)} {key : κ}

/-- What stands was created. -/
theorem turns_of_standing {item : κ × (φ → ν)} (mem : item ∈ standing unset journal)
    : journal.any (Entry.turns item.1) = true := by
  induction journal with
  | nil => simp [standing] at mem
  | cons entry later ih =>
      rw [List.any_cons, Bool.or_eq_true]
      cases entry with
      | create other =>
          rw [standing] at mem
          split at mem
          · exact .inr (ih mem)
          · rcases List.mem_cons.mp mem with rfl | mem
            · exact .inl (by simp [Entry.turns])
            · exact .inr (ih mem)
      | delete other => exact .inr (ih mem)
      | assign other field value => exact .inr (ih mem)

/-- A key stands once. -/
theorem standing_nodup : ((standing unset journal).map Prod.fst).Nodup := by
  induction journal with
  | nil => exact List.nodup_nil
  | cons entry later ih =>
      cases entry with
      | create key =>
          rw [standing]
          split
          · exact ih
          · next last =>
              rw [List.map_cons, List.nodup_cons]
              refine ⟨fun mem => last ?_, ih⟩
              obtain ⟨item, standing, rfl⟩ := List.mem_map.mp mem
              exact turns_of_standing standing
      | delete key => exact ih
      | assign key field value => exact ih

omit [DecidableEq φ] in
theorem any_turns_append (entry : Entry κ φ ν) (key : κ)
    : (journal ++ [entry]).any (Entry.turns key)
      = (journal.any (Entry.turns key) || entry.turns key) := by
  simp

theorem lastValue_append (entry : Entry κ φ ν) (field : φ)
    : lastValue unset key field (journal ++ [entry])
      = (entry.assigned key field).getD (lastValue unset key field journal) := by
  rw [lastValue, List.reverse_append, List.reverse_singleton, List.singleton_append,
    List.findSome?_cons]
  cases entry.assigned key field <;> rfl

/-- Dropping a key from what stands. -/
def without (key : κ) (items : List (κ × (φ → ν))) : List (κ × (φ → ν)) :=
  items.filter fun item => item.1 ≠ key

/-- A deletion ends the registration of its key. -/
theorem standing_delete
    : standing unset (journal ++ [.delete key]) = without key (standing unset journal) := by
  induction journal with
  | nil => rfl
  | cons entry later ih =>
      cases entry with
      | create other =>
          rw [List.cons_append, standing, standing, any_turns_append, ih]
          by_cases turned : later.any (Entry.turns other) = true
          · simp [turned]
          · by_cases same : key = other
            · simp [turned, same, Entry.turns, without]
            · simp [turned, same, Entry.turns, without, lastValue_append, Entry.assigned,
                Ne.symm same]
      | delete other => exact ih
      | assign other field value => exact ih

/-- A creation begins the registration of its key anew, behind the others. -/
theorem standing_create
    : standing unset (journal ++ [.create key])
      = without key (standing unset journal) ++ [(key, fun _ => unset)] := by
  induction journal with
  | nil => rfl
  | cons entry later ih =>
      cases entry with
      | create other =>
          rw [List.cons_append, standing, standing, any_turns_append, ih]
          by_cases turned : later.any (Entry.turns other) = true
          · simp [turned]
          · by_cases same : key = other
            · simp [turned, same, Entry.turns, without]
            · simp [turned, same, Entry.turns, without, lastValue_append, Entry.assigned,
                Ne.symm same]
      | delete other => exact ih
      | assign other field value => exact ih

/-- An assignment changes a field of its key. -/
theorem standing_assign (field : φ) (value : ν)
    : standing unset (journal ++ [.assign key field value])
      = (standing unset journal).map fun item =>
          if item.1 = key then (item.1, Function.update item.2 field value) else item := by
  induction journal with
  | nil => rfl
  | cons entry later ih =>
      cases entry with
      | create other =>
          rw [List.cons_append, standing, standing, any_turns_append, ih]
          by_cases turned : later.any (Entry.turns other) = true
          · simp [turned]
          · have values : (fun field' => lastValue unset other field'
                  (later ++ [.assign key field value]))
                = if other = key then
                    Function.update (fun field' => lastValue unset other field' later) field value
                  else
                    fun field' => lastValue unset other field' later := by
              funext field'
              rw [lastValue_append]
              by_cases same : other = key
              · by_cases there : field' = field
                · simp [Entry.assigned, same, there]
                · simp [Entry.assigned, same, there, Ne.symm there]
              · simp [Entry.assigned, same, Ne.symm same]
            simp only [turned, Entry.turns, Bool.or_false, Bool.false_eq_true, if_false,
              List.map_cons, values]
            split <;> rfl
      | delete other => exact ih
      | assign other field value => exact ih

end

-----------------------------------------------------------------------------------------
-- One item of what stands
-----------------------------------------------------------------------------------------

section

variable {front back : List (κ × (φ → ν))} {item : κ × (φ → ν)}

omit [DecidableEq φ] [DecidableEq κ] in
/-- Where keys stand once, the key of an item stands neither before nor behind it. -/
theorem ne_of_nodup (nodup : ((front ++ item :: back).map Prod.fst).Nodup)
    {other : κ × (φ → ν)} (mem : other ∈ front ∨ other ∈ back)
    : other.1 ≠ item.1 := by
  rw [List.map_append, List.map_cons, List.nodup_middle, List.nodup_cons] at nodup
  intro same
  apply nodup.1
  rw [← List.map_append, ← same]
  exact List.mem_map_of_mem (List.mem_append.mpr mem)

omit [DecidableEq φ] in
/-- Dropping the key of an item drops just the item. -/
theorem without_split (nodup : ((front ++ item :: back).map Prod.fst).Nodup)
    : without item.1 (front ++ item :: back) = front ++ back := by
  have others {items : List (κ × (φ → ν))} (ne : ∀ other ∈ items, other.1 ≠ item.1)
      : items.filter (fun other => other.1 ≠ item.1) = items :=
    List.filter_eq_self.mpr fun other mem => decide_eq_true (ne other mem)
  rw [without, List.filter_append, List.filter_cons_of_neg (by simp),
    others fun other mem => ne_of_nodup nodup (.inl mem),
    others fun other mem => ne_of_nodup nodup (.inr mem)]

/-- Assigning to the key of an item changes just the item. -/
theorem assign_split (nodup : ((front ++ item :: back).map Prod.fst).Nodup) (field : φ) (value : ν)
    : (front ++ item :: back).map (fun other =>
          if other.1 = item.1 then (other.1, Function.update other.2 field value) else other)
      = front ++ (item.1, Function.update item.2 field value) :: back := by
  have others {items : List (κ × (φ → ν))} (ne : ∀ other ∈ items, other.1 ≠ item.1)
      : items.map (fun other =>
          if other.1 = item.1 then (other.1, Function.update other.2 field value) else other)
        = items := by
    refine (List.map_congr_left fun other mem => ?_).trans (List.map_id items)
    rw [if_neg (ne other mem)]
    rfl
  rw [List.map_append, List.map_cons, if_pos rfl,
    others fun other mem => ne_of_nodup nodup (.inl mem),
    others fun other mem => ne_of_nodup nodup (.inr mem)]

omit [DecidableEq φ] in
/-- Dropping a key that does not stand drops nothing. -/
theorem without_of_absent {items : List (κ × (φ → ν))} {key : κ}
    (absent : ∀ other ∈ items, other.1 ≠ key)
    : without key items = items :=
  List.filter_eq_self.mpr fun other mem => decide_eq_true (absent other mem)

end

end Journals
