import Mathlib.Data.List.Basic

/-! Runs of a fallible step function over a list of events, with the invariant rules.
A step that fails ends the run; a guard is checked at the state its event meets.
-/

namespace EventRuns

variable {S E F : Type*} (step : S → E → Except F S)

/-- Apply every event in order, stopping at the first failure. -/
def run : S → List E → Except F S
  | s, [] => .ok s
  | s, e :: rest =>
      match step s e with
      | .ok next => run next rest
      | .error fault => .error fault

/-- A state some run from `init` ends in. -/
def Reachable (init s : S) : Prop :=
  ∃ events, run step init events = .ok s

/-- Every event of the run meets `guard` at the state it is applied to. -/
def Guarded (guard : S → E → Prop) : S → List E → Prop
  | _, [] => True
  | s, e :: rest => guard s e ∧ ∀ next, step s e = .ok next → Guarded guard next rest

variable {step}

@[simp]
theorem run_nil (s : S) : run step s [] = .ok s := rfl

/-- A run that begins with `e` succeeds exactly when the step and the rest both do. -/
theorem run_cons_eq_ok {s final : S} {e : E} {rest : List E}
    : run step s (e :: rest) = .ok final
      ↔ ∃ next, step s e = .ok next ∧ run step next rest = .ok final := by
  cases h : step s e <;> simp [run, h]

/-- Runs compose: a run over an append passes through a middle state. -/
theorem run_append_eq_ok {s final : S} {head tail : List E}
    : run step s (head ++ tail) = .ok final
      ↔ ∃ middle, run step s head = .ok middle ∧ run step middle tail = .ok final := by
  induction head generalizing s with
  | nil => simp
  | cons e rest ih =>
      simp only [List.cons_append, run_cons_eq_ok, ih]
      constructor
      · rintro ⟨next, hs, middle, hr, ht⟩
        exact ⟨middle, ⟨next, hs, hr⟩, ht⟩
      · rintro ⟨middle, ⟨next, hs, hr⟩, ht⟩
        exact ⟨next, hs, middle, hr, ht⟩

/-- The initial state is reachable by the empty run. -/
theorem Reachable.init (s : S) : Reachable step s s := ⟨[], rfl⟩

-----------------------------------------------------------------------------------------
-- Invariant rules
-----------------------------------------------------------------------------------------

/-- An invariant kept by every guarded step holds after every guarded run. -/
theorem Guarded.invariant {Inv : S → Prop} {guard : S → E → Prop} {s final : S}
    {events : List E} (guarded : Guarded step guard s events)
    (keeps : ∀ s e next, Inv s → guard s e → step s e = .ok next → Inv next)
    (start : Inv s) (done : run step s events = .ok final)
    : Inv final := by
  induction events generalizing s with
  | nil =>
      obtain rfl : s = final := by simpa using done
      exact start
  | cons e rest ih =>
      obtain ⟨next, hs, hr⟩ := run_cons_eq_ok.mp done
      exact ih (guarded.2 next hs) (keeps s e next start guarded.1 hs) hr

/-- A guard that asks nothing is met by every run. -/
theorem guarded_true (s : S) (events : List E)
    : Guarded step (fun _ _ => True) s events := by
  induction events generalizing s with
  | nil => trivial
  | cons e rest ih => exact ⟨trivial, fun next _ => ih next⟩

/-- A guard on events alone holds along a run when every event of the list meets it. -/
theorem guarded_of_forall {P : E → Prop} {events : List E} (h : ∀ e ∈ events, P e) (s : S)
    : Guarded step (fun _ e => P e) s events := by
  induction events generalizing s with
  | nil => trivial
  | cons e rest ih =>
      exact ⟨h e (by simp), fun next _ => ih (fun e he => h e (by simp [he])) next⟩

/-- Two guards met along a run are met together. -/
theorem Guarded.and {guard more : S → E → Prop} {s : S} {events : List E}
    (left : Guarded step guard s events) (right : Guarded step more s events)
    : Guarded step (fun s e => guard s e ∧ more s e) s events := by
  induction events generalizing s with
  | nil => trivial
  | cons e rest ih =>
      exact ⟨⟨left.1, right.1⟩, fun next hs => ih (left.2 next hs) (right.2 next hs)⟩

/-- Guards that ask the same wherever an invariant holds are met along the same runs, if the
guarded steps keep the invariant.
-/
theorem Guarded.congr {Inv : S → Prop} {guard more : S → E → Prop} {s : S} {events : List E}
    (same : ∀ s e, Inv s → (guard s e ↔ more s e))
    (keeps : ∀ s e next, Inv s → guard s e → step s e = .ok next → Inv next) (start : Inv s)
    : Guarded step guard s events ↔ Guarded step more s events := by
  induction events generalizing s with
  | nil => exact Iff.rfl
  | cons e rest ih =>
      constructor
      · rintro ⟨met, ahead⟩
        exact ⟨(same s e start).mp met,
          fun next hs => (ih (keeps s e next start met hs)).mp (ahead next hs)⟩
      · rintro ⟨met, ahead⟩
        have met' := (same s e start).mpr met
        exact ⟨met', fun next hs => (ih (keeps s e next start met' hs)).mpr (ahead next hs)⟩

/-- An invariant kept by every step holds after every run. -/
theorem run_invariant {Inv : S → Prop}
    (keeps : ∀ s e next, Inv s → step s e = .ok next → Inv next)
    {s final : S} {events : List E} (start : Inv s) (done : run step s events = .ok final)
    : Inv final :=
  (guarded_true s events).invariant (fun s e next inv _ hs => keeps s e next inv hs) start done

/-- An invariant of the initial state kept by every step holds of every reachable state. -/
theorem Reachable.invariant {Inv : S → Prop} {init s : S}
    (keeps : ∀ s e next, Inv s → step s e = .ok next → Inv next)
    (start : Inv init) (h : Reachable step init s)
    : Inv s := by
  obtain ⟨events, done⟩ := h
  exact run_invariant keeps start done

/-- What holds at the end of a run has held since its start, or since an event of the run that
gave rise to it. By induction on the events.
-/
theorem exists_origin {Inv held : S → Prop} {gives : S → E → Prop}
    (keeps : ∀ s e next, Inv s → step s e = .ok next → Inv next)
    (arises : ∀ s e next, Inv s → step s e = .ok next → held next → held s ∨ gives s e)
    {s final : S} {events : List E} (start : Inv s) (done : run step s events = .ok final)
    (ends : held final)
    : (held s ∧ Guarded step (fun s _ => held s) s events)
      ∨ ∃ before e after middle next, events = before ++ e :: after
          ∧ run step s before = .ok middle ∧ step middle e = .ok next ∧ gives middle e
          ∧ held next ∧ Guarded step (fun s _ => held s) next after := by
  induction events generalizing s with
  | nil =>
      obtain rfl : s = final := by simpa using done
      exact .inl ⟨ends, trivial⟩
  | cons e rest ih =>
      obtain ⟨next, hs, hr⟩ := run_cons_eq_ok.mp done
      rcases ih (keeps s e next start hs) hr
        with ⟨now, since⟩ | ⟨before, e', after, middle, next', rfl, ran, rise⟩
      · by_cases earlier : held s
        · refine .inl ⟨earlier, earlier, fun next' hs' => ?_⟩
          obtain rfl := Except.ok.inj (hs.symm.trans hs')
          exact since
        · have given := (arises s e next start hs now).resolve_left earlier
          exact .inr ⟨[], e, rest, s, next, rfl, rfl, hs, given, now, since⟩
      · exact .inr ⟨e :: before, e', after, middle, next', rfl,
          run_cons_eq_ok.mpr ⟨next, hs, ran⟩, rise⟩

/-- A guarded run whose guarded steps succeed and keep the invariant succeeds. -/
theorem Guarded.progress {Inv : S → Prop} {guard : S → E → Prop} {s : S}
    {events : List E} (guarded : Guarded step guard s events)
    (steps : ∀ s e, Inv s → guard s e → ∃ next, step s e = .ok next ∧ Inv next)
    (start : Inv s)
    : ∃ final, run step s events = .ok final ∧ Inv final := by
  induction events generalizing s with
  | nil => exact ⟨s, rfl, start⟩
  | cons e rest ih =>
      obtain ⟨next, hs, hn⟩ := steps s e start guarded.1
      obtain ⟨final, hr, hf⟩ := ih (guarded.2 next hs) hn
      exact ⟨final, run_cons_eq_ok.mpr ⟨next, hs, hr⟩, hf⟩

/-- Where one step function follows another, it follows its runs. -/
theorem run_follows {S' F' : Type*} {step' : S' → E → Except F' S'} {Rel : S → S' → Prop}
    (follows
      : ∀ s s' e next, Rel s s' → step s e = .ok next
        → ∃ next', step' s' e = .ok next' ∧ Rel next next')
    {s final : S} {s' : S'} {events : List E} (start : Rel s s')
    (done : run step s events = .ok final)
    : ∃ final', run step' s' events = .ok final' ∧ Rel final final' := by
  induction events generalizing s s' with
  | nil =>
      obtain rfl : s = final := by simpa using done
      exact ⟨s', rfl, start⟩
  | cons e rest ih =>
      obtain ⟨next, hs, hr⟩ := run_cons_eq_ok.mp done
      obtain ⟨next', hs', rel⟩ := follows s s' e next start hs
      obtain ⟨final', hr', rel'⟩ := ih rel hr
      exact ⟨final', run_cons_eq_ok.mpr ⟨next', hs', hr'⟩, rel'⟩

end EventRuns
