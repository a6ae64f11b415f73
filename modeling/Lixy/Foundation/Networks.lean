import Mathlib.Data.List.Basic
import Mathlib.Logic.Function.Basic
import Mathlib.Logic.Relation

/-! Parties that send messages to each other. The network may lose, repeat, reorder and misdirect
what is sent, so a message that is on the air once can arrive at any party from then on, any
number of times or never. Two rules: an invariant of the parties and of the messages on the air,
and that every message was sent.
-/

namespace Networks

/-- How the parties work. -/
structure Protocol (S E M F : Type*) where
  /-- What an event does to a party. -/
  react : S → E → Except F S
  /-- What a party may send on its way from one state to the next. -/
  Emits : S → S → M → Prop
  /-- The events that need no message. -/
  Outside : E → Prop
  /-- The events that the arrival of a message may be. -/
  Arrives : M → E → Prop

/-- The parties, and all the messages that were sent. -/
structure Network (ι S M : Type*) where
  parties : ι → S
  air : List M

section

variable {ι S E M F : Type*} [DecidableEq ι] (protocol : Protocol S E M F)

/-- A party goes on to a state, and messages go on the air. -/
def Network.put (net : Network ι S M) (i : ι) (next : S) (sent : List M) : Network ι S M :=
  ⟨Function.update net.parties i next, sent ++ net.air⟩

@[simp]
theorem Network.put_self (net : Network ι S M) (i : ι) (next : S) (sent : List M)
    : (net.put i next sent).parties i = next := by
  simp [put]

theorem Network.put_other (net : Network ι S M) {i j : ι} (other : j ≠ i) (next : S)
    (sent : List M)
    : (net.put i next sent).parties j = net.parties j := by
  simp [put, other]

/-- The event has a cause: one from outside, or a message. -/
def Caused (air : List M) (e : E) : Prop :=
  protocol.Outside e ∨ ∃ m ∈ air, protocol.Arrives m e

/-- A party reacts to an event, and some messages go on the air. -/
inductive Step (net : Network ι S M) : Network ι S M → Prop
  | react (i : ι) (e : E) (next : S) (sent : List M) (caused : Caused protocol net.air e)
      (done : protocol.react (net.parties i) e = .ok next)
      (emitted : ∀ m ∈ sent, protocol.Emits (net.parties i) next m)
      : Step net (net.put i next sent)

/-- One network comes from another by steps in any order. -/
abbrev Reaches : Network ι S M → Network ι S M → Prop := Relation.ReflTransGen (Step protocol)

variable {protocol} {start net : Network ι S M}

/-- What holds of each party beside what is on the air, and of each message, holds for good, if
more on the air does not hurt and if what happens to one party keeps it.
-/
theorem Reaches.invariant {Local : List M → S → Prop} {Good : M → Prop}
    (grows : ∀ air more s, Local air s → Local (more ++ air) s)
    (keeps : ∀ air s e next, Local air s → (∀ m ∈ air, Good m) → Caused protocol air e
      → protocol.react s e = .ok next
      → Local air next ∧ ∀ m, protocol.Emits s next m → Good m)
    (locally : ∀ i, Local start.air (start.parties i)) (good : ∀ m ∈ start.air, Good m)
    (reaches : Reaches protocol start net)
    : (∀ i, Local net.air (net.parties i)) ∧ ∀ m ∈ net.air, Good m := by
  induction reaches with
  | refl => exact ⟨locally, good⟩
  | tail _ step ih =>
      obtain ⟨locally, good⟩ := ih
      obtain ⟨i, e, next, sent, caused, done, emitted⟩ := step
      obtain ⟨kept, fresh⟩ := keeps _ _ e next (locally i) good caused done
      constructor
      · intro j
        rcases eq_or_ne j i with rfl | other
        · rw [Network.put_self]
          exact grows _ sent _ kept
        · rw [Network.put_other _ other]
          exact grows _ sent _ (locally j)
      · intro m mem
        rcases List.mem_append.mp mem with mem | mem
        · exact fresh m (emitted m mem)
        · exact good m mem

/-- A message on the air was there from the start, or a party sent it on the way. -/
theorem Reaches.sender (reaches : Reaches protocol start net) {m : M} (mem : m ∈ net.air)
    : m ∈ start.air
      ∨ ∃ before after i, Reaches protocol start before ∧ Step protocol before after
          ∧ Reaches protocol after net
          ∧ protocol.Emits (before.parties i) (after.parties i) m := by
  induction reaches with
  | refl => exact .inl mem
  | @tail before after reached step ih =>
      have taken := step
      obtain ⟨i, e, next, sent, caused, done, emitted⟩ := step
      rcases List.mem_append.mp mem with fresh | old
      · refine .inr ⟨before, _, i, reached, taken, .refl, ?_⟩
        rw [Network.put_self]
        exact emitted m fresh
      · rcases ih old with first | ⟨sender, sending, j, since, sends, until_, emits⟩
        · exact .inl first
        · exact .inr ⟨sender, sending, j, since, sends, until_.tail taken, emits⟩

end

end Networks
