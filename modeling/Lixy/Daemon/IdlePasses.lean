import Lixy.Daemon.QueryResolution
import Lixy.Daemon.ValidEvents
import Lixy.MapTable.SweepExactness

/-! The TTL thread alone: what any number of passes in a row leave of a table. The entries at and
below a STATIC one stay for good; every other entry is lowered, asked for and removed in time.
-/

namespace Lixy

open LongestPrefix (Store)
open EventRuns (run Reachable)

-----------------------------------------------------------------------------------------
-- The passes that an entry lasts
-----------------------------------------------------------------------------------------

/-- The number of the pass that removes a dynamic entry. A ttl that is so low that lowering it
wraps around begins again at the top.
-/
def Mapnode.lifetime (mn : Mapnode) : Nat :=
  if mn.ttl.toInt < -2147483638 then ((mn.ttl.toInt + 4294967295) / 10).toNat + 1
  else max 1 ((mn.ttl.toInt + 9) / 10).toNat

section

variable {mn : Mapnode}

theorem Mapnode.lifetime_pos (mn : Mapnode) : 1 ≤ mn.lifetime := by
  rw [lifetime]
  split <;> omega

/-- No entry lasts longer than the greatest ttl, and one pass. -/
theorem Mapnode.lifetime_le (mn : Mapnode) : mn.lifetime ≤ 214748366 := by
  have low := BitVec.le_toInt mn.ttl
  have high := BitVec.toInt_lt (x := mn.ttl)
  rw [lifetime]
  split <;> omega

theorem Mapnode.expires_iff_lifetime (dynamic : mn.state ≠ .static)
    : mn.expires = true ↔ mn.lifetime = 1 := by
  have low := BitVec.le_toInt mn.ttl
  have high := BitVec.toInt_lt (x := mn.ttl)
  simp only [expires, bne_iff_ne, ne_eq, dynamic, not_false_eq_true, Bool.and_eq_true, true_and,
    decide_eq_true_eq, aged_ttl, lifetime]
  split <;> split <;> omega

/-- A pass that leaves an entry takes one from its lifetime. -/
theorem Mapnode.lifetime_aged (dynamic : mn.state ≠ .static) (kept : ¬ mn.expires = true)
    : mn.lifetime = mn.aged.lifetime + 1 := by
  rw [expires_iff_lifetime dynamic] at kept
  have least := BitVec.le_toInt mn.ttl
  have greatest := BitVec.toInt_lt (x := mn.ttl)
  have lowered := aged_ttl mn
  by_cases low : mn.ttl.toInt < -2147483638
  · rw [if_neg (by omega)] at lowered
    rw [lifetime, if_pos low, lifetime, lowered, if_neg (by omega)]
    omega
  · rw [if_pos (by omega)] at lowered
    rw [lifetime, if_neg low] at kept ⊢
    rw [lifetime, lowered, if_neg (by omega)]
    omega

end

-----------------------------------------------------------------------------------------
-- Entries that passes do not reach
-----------------------------------------------------------------------------------------

/-- A STATIC entry is at the key or above it. -/
def Sheltered (store : Store Bool (Prefix × Mapnode)) (key : List Bool) : Prop :=
  ∃ above s, store above = some s ∧ s.2.state = .static ∧ above <+: key

section

variable {lisp : Lisp} {w : Walk Lisp} {key : List Bool} {e : Prefix × Mapnode}

/-- An entry that is not sheltered is dynamic. -/
theorem dynamic_of_unsheltered {store : Store Bool (Prefix × Mapnode)}
    (stored : store key = some e) (open_ : ¬ Sheltered store key)
    : e.2.state ≠ .static :=
  fun static => open_ ⟨key, e, stored, static, List.prefix_rfl⟩

/-- A pass visits the dynamic entries that are not sheltered. -/
theorem TableOk.mem_visited_iff (ok : TableOk lisp.rib) (stored : lisp.rib.store key = some e)
    (dynamic : e.2.state ≠ .static)
    : e ∈ visited lisp.head ↔ ¬ Sheltered lisp.rib.store key := by
  obtain ⟨mem, rfl⟩ := ok.store_eq_some_iff.mp stored
  rw [ok.wf.mem_visited]
  constructor
  · rintro ⟨_, uncovered⟩ ⟨above, s, there, static, covers⟩
    obtain ⟨memS, rfl⟩ := ok.store_eq_some_iff.mp there
    have same := uncovered s memS static covers
    rw [ok.wf.entry_unique memS mem same] at static
    exact dynamic static
  · exact fun open_ => ⟨mem, fun s memS static covers =>
      absurd ⟨_, s, ok.store_self memS, static, covers⟩ open_⟩

/-- A pass stores nothing under a new key. -/
theorem Passed.absent (h : Passed lisp w) (none : lisp.rib.store key = none)
    : w.st.rib.store key = .none := by
  rw [h.store, foldl_visit_other]
  · exact none
  · intro e he same
    have mem := (h.ok.wf.mem_visited.mp he).1
    exact h.ok.wf.store_eq_none_iff.mp none e mem same

/-- A pass leaves what is sheltered alone. -/
theorem Passed.sheltered (h : Passed lisp w) (sheltered : Sheltered lisp.rib.store key)
    : w.st.rib.store key = lisp.rib.store key := by
  cases stored : lisp.rib.store key with
  | none => exact h.absent stored
  | some e =>
      obtain ⟨mem, rfl⟩ := h.ok.store_eq_some_iff.mp stored
      by_cases static : e.2.state = .static
      · exact h.static mem static
      · exact h.unvisited mem fun visit =>
          (h.ok.mem_visited_iff stored static).mp visit sheltered

/-- What is not sheltered a pass ages or removes. -/
theorem Passed.unsheltered (h : Passed lisp w) (open_ : ¬ Sheltered lisp.rib.store key)
    : w.st.rib.store key
      = (lisp.rib.store key).bind fun e =>
          if e.2.expires then none else some (e.1, e.2.aged) := by
  cases stored : lisp.rib.store key with
  | none => exact h.absent stored
  | some e =>
      have dynamic := dynamic_of_unsheltered stored open_
      have visit := (h.ok.mem_visited_iff stored dynamic).mpr open_
      obtain ⟨_, rfl⟩ := h.ok.store_eq_some_iff.mp stored
      exact h.dynamic visit dynamic

/-- A pass shelters nothing, and leaves nothing without shelter. -/
theorem Passed.sheltered_iff (h : Passed lisp w)
    : Sheltered w.st.rib.store key ↔ Sheltered lisp.rib.store key := by
  constructor
  · rintro ⟨above, s, there, static, covers⟩
    by_cases sheltered : Sheltered lisp.rib.store above
    · exact ⟨above, s, h.sheltered sheltered ▸ there, static, covers⟩
    · rw [h.unsheltered sheltered] at there
      obtain ⟨before, stored, there⟩ := Option.bind_eq_some_iff.mp there
      split at there
      · cases there
      · obtain rfl := Option.some.inj there
        have dynamic := dynamic_of_unsheltered stored sheltered
        exact absurd static dynamic
  · rintro ⟨above, s, there, static, covers⟩
    have itself : Sheltered lisp.rib.store above := ⟨above, s, there, static, List.prefix_rfl⟩
    exact ⟨above, s, (h.sheltered itself).trans there, static, covers⟩

end

-----------------------------------------------------------------------------------------
-- Many passes
-----------------------------------------------------------------------------------------

/-- The Map-Requests of `k` passes over a table: an entry that is not sheltered is asked for in
each pass but the one that removes it.
-/
structure Asked (k : Nat) (store : Store Bool (Prefix × Mapnode)) (sent : List Prefix) : Prop where
  times
    : ∀ key e, store key = some e → ¬ Sheltered store key → e.2.refreshed = true
      → (sent.map Prefix.key).count key = min k (e.2.lifetime - 1)
  only
    : ∀ key ∈ sent.map Prefix.key, ∃ e, store key = some e ∧ ¬ Sheltered store key
        ∧ e.2.refreshed = true

/-- What `k` passes in a row leave: the sheltered entries as they were; every other entry with
its ttl lowered, for as many passes as it lasts; and the routes but those of ACTIVE entries that
were removed.
-/
structure Idled (k : Nat) (before after : Lisp) : Prop where
  sheltered
    : ∀ key, Sheltered before.rib.store key → after.rib.store key = before.rib.store key
  lowered
    : ∀ key, ¬ Sheltered before.rib.store key
      → after.rib.store key
        = (before.rib.store key).bind fun e =>
            if k < e.2.lifetime then
              some (e.1, { e.2 with ttl := e.2.ttl - BitVec.ofNat 32 (10 * k) })
            else none
  routes
    : ∀ route, route ∈ after.routes
      ↔ route ∈ before.routes
        ∧ ¬ ∃ key e, before.rib.store key = some e ∧ ¬ Sheltered before.rib.store key
            ∧ e.2.state = .active ∧ e.2.lifetime ≤ k ∧ e.1.route = route
  asked
    : ∃ sent, after.mapRequests = sent ++ before.mapRequests ∧ Asked k before.rib.store sent

section

variable {lisp final : Lisp} {w : Walk Lisp} {k : Nat}

/-- The requests of one pass. -/
theorem Passed.asked (h : Passed lisp w)
    : ∃ sent, w.st.mapRequests = sent ++ lisp.mapRequests
        ∧ (sent.map Prefix.key).Nodup
        ∧ ∀ key, key ∈ sent.map Prefix.key
          ↔ ∃ e, lisp.rib.store key = some e ∧ ¬ Sheltered lisp.rib.store key
              ∧ e.2.asks = true := by
  refine ⟨_, (congrArg SweepView.mapRequests h.view).trans (foldl_visit_mapRequests _ _), ?_, ?_⟩
  · rw [List.map_reverse, List.nodup_reverse, List.map_map]
    exact h.keys_nodup.sublist (List.filter_sublist.map _)
  · intro key
    have dynamic {e : Prefix × Mapnode} (asks : e.2.asks = true) : e.2.state ≠ .static := by
      intro static
      simp [Mapnode.asks, Mapnode.refreshed, static] at asks
    simp only [List.map_reverse, List.mem_reverse, List.map_map, List.mem_map, List.mem_filter,
      Function.comp_apply]
    constructor
    · rintro ⟨e, ⟨visit, asks⟩, rfl⟩
      have stored := h.ok.store_self (h.ok.wf.mem_visited.mp visit).1
      exact ⟨e, stored, (h.ok.mem_visited_iff stored (dynamic asks)).mp visit, asks⟩
    · rintro ⟨e, stored, open_, asks⟩
      obtain ⟨_, same⟩ := h.ok.store_eq_some_iff.mp stored
      exact ⟨e, ⟨(h.ok.mem_visited_iff stored (dynamic asks)).mpr open_, asks⟩, same⟩

/-- The routes that one pass leaves. -/
theorem Passed.mem_routes (h : Passed lisp w) {route : Route}
    : route ∈ w.st.routes
      ↔ route ∈ lisp.routes
        ∧ ¬ ∃ key e, lisp.rib.store key = some e ∧ ¬ Sheltered lisp.rib.store key
            ∧ e.2.state = .active ∧ e.2.lifetime = 1 ∧ e.1.route = route := by
  have routes : w.st.routes = ((visited lisp.head).foldl SweepView.visit lisp.sweepView).routes :=
    congrArg SweepView.routes h.view
  rw [routes, mem_foldl_visit_routes]
  refine and_congr Iff.rfl (not_congr ⟨?_, ?_⟩)
  · rintro ⟨e, visit, active, due, same⟩
    have dynamic : e.2.state ≠ .static := by simp [active]
    have stored := h.ok.store_self (h.ok.wf.mem_visited.mp visit).1
    exact ⟨_, e, stored, (h.ok.mem_visited_iff stored dynamic).mp visit, active,
      (Mapnode.expires_iff_lifetime dynamic).mp due, same⟩
  · rintro ⟨key, e, stored, open_, active, last, same⟩
    have dynamic : e.2.state ≠ .static := by simp [active]
    exact ⟨e, (h.ok.mem_visited_iff stored dynamic).mpr open_, active,
      (Mapnode.expires_iff_lifetime dynamic).mpr last, same⟩

/-- What is left of an entry, one pass later. -/
theorem Passed.stored_iff (h : Passed lisp w) {key : List Bool} {e : Prefix × Mapnode}
    (open_ : ¬ Sheltered lisp.rib.store key)
    : w.st.rib.store key = some e
      ↔ ∃ mn, lisp.rib.store key = some (e.1, mn) ∧ mn.lifetime = e.2.lifetime + 1
          ∧ e.2 = mn.aged := by
  rw [h.unsheltered open_]
  constructor
  · intro left
    obtain ⟨old, stored, left⟩ := Option.bind_eq_some_iff.mp left
    split at left
    · cases left
    · next kept =>
        obtain rfl := Option.some.inj left
        have dynamic := dynamic_of_unsheltered stored open_
        exact ⟨old.2, stored, Mapnode.lifetime_aged dynamic kept, rfl⟩
  · rintro ⟨mn, stored, longer, aged⟩
    have dynamic : mn.state ≠ .static := dynamic_of_unsheltered stored open_
    have kept : ¬ mn.expires = true := by
      rw [Mapnode.expires_iff_lifetime dynamic]
      have last := e.2.lifetime_pos
      omega
    rw [stored, Option.bind_some, if_neg kept, ← aged]

theorem idled_zero : Idled 0 lisp lisp where
  sheltered := fun _ _ => rfl
  lowered := fun key _ => by
    cases lisp.rib.store key with
    | none => rfl
    | some e => simp [Nat.lt_of_lt_of_le Nat.zero_lt_one e.2.lifetime_pos]
  routes := fun route => by
    refine (and_iff_left ?_).symm
    rintro ⟨_, e, _, _, _, last, _⟩
    exact absurd e.2.lifetime_pos (by omega)
  asked := ⟨[], rfl, fun _ _ _ _ _ => (Nat.zero_min _).symm,
    fun _ mem => absurd mem List.not_mem_nil⟩

/-- A pass before the others: the entries that it leaves last one pass less. -/
theorem Passed.lowered (h : Passed lisp w) (rest : Idled k w.st final) {key : List Bool}
    (open_ : ¬ Sheltered lisp.rib.store key)
    : final.rib.store key
      = (lisp.rib.store key).bind fun e =>
          if k + 1 < e.2.lifetime then
            some (e.1, { e.2 with ttl := e.2.ttl - BitVec.ofNat 32 (10 * (k + 1)) })
          else none := by
  rw [rest.lowered key (mt h.sheltered_iff.mp open_), h.unsheltered open_]
  cases stored : lisp.rib.store key with
  | none => rfl
  | some e =>
      have dynamic := dynamic_of_unsheltered stored open_
      simp only [Option.bind_some]
      by_cases due : e.2.expires = true
      · have last := (Mapnode.expires_iff_lifetime dynamic).mp due
        rw [if_pos due, if_neg (by omega)]
        rfl
      · have longer := Mapnode.lifetime_aged dynamic due
        have ttl : e.2.aged.ttl - BitVec.ofNat 32 (10 * k)
            = e.2.ttl - BitVec.ofNat 32 (10 * (k + 1)) := by
          rw [Mapnode.aged, mapttlCheckInterval]
          bv_omega
        rw [if_neg due, Option.bind_some, longer, ttl]
        by_cases left : k < e.2.aged.lifetime
        · rw [if_pos left, if_pos (by omega)]
          rfl
        · rw [if_neg left, if_neg (by omega)]

theorem Passed.routes (h : Passed lisp w) (rest : Idled k w.st final) (route : Route)
    : route ∈ final.routes
      ↔ route ∈ lisp.routes
        ∧ ¬ ∃ key e, lisp.rib.store key = some e ∧ ¬ Sheltered lisp.rib.store key
            ∧ e.2.state = .active ∧ e.2.lifetime ≤ k + 1 ∧ e.1.route = route := by
  rw [rest.routes, h.mem_routes, and_assoc, ← not_or]
  refine and_congr Iff.rfl (not_congr ⟨?_, ?_⟩)
  · rintro (⟨key, e, stored, open_, active, last, same⟩
      | ⟨key, e, stored, open_, active, last, same⟩)
    · exact ⟨key, e, stored, open_, active, by omega, same⟩
    · rw [h.sheltered_iff] at open_
      obtain ⟨mn, before, longer, aged⟩ := (h.stored_iff open_).mp stored
      rw [aged] at active
      exact ⟨key, _, before, open_, active, by dsimp only; omega, same⟩
  · rintro ⟨key, e, stored, open_, active, last, same⟩
    by_cases now : e.2.lifetime = 1
    · exact .inl ⟨key, e, stored, open_, active, now, same⟩
    · have dynamic := dynamic_of_unsheltered stored open_
      have kept := mt (Mapnode.expires_iff_lifetime dynamic).mp now
      have longer := Mapnode.lifetime_aged dynamic kept
      have there : w.st.rib.store key = some (e.1, e.2.aged) :=
        (h.stored_iff open_).mpr ⟨e.2, stored, longer, rfl⟩
      exact .inr ⟨key, _, there, mt h.sheltered_iff.mp open_, active, by dsimp only; omega, same⟩

/-- The requests of a pass and of those behind it. -/
theorem Passed.asked_append (h : Passed lisp w) {first later : List Prefix}
    (once : (first.map Prefix.key).Nodup)
    (now : ∀ key, key ∈ first.map Prefix.key
      ↔ ∃ e, lisp.rib.store key = some e ∧ ¬ Sheltered lisp.rib.store key ∧ e.2.asks = true)
    (rest : Asked k w.st.rib.store later)
    : Asked (k + 1) lisp.rib.store (later ++ first) where
  times := fun key e stored open_ refreshed => by
    have dynamic := dynamic_of_unsheltered stored open_
    have open' := mt h.sheltered_iff.mp open_
    rw [List.map_append, List.count_append]
    by_cases due : e.2.expires = true
    · have last := (Mapnode.expires_iff_lifetime dynamic).mp due
      have gone : w.st.rib.store key = none := by
        rw [h.unsheltered open_, stored, Option.bind_some, if_pos due]
      rw [List.count_eq_zero_of_not_mem, List.count_eq_zero_of_not_mem]
      · omega
      · rw [now]
        rintro ⟨e', stored', _, asks⟩
        obtain rfl := Option.some.inj (stored.symm.trans stored')
        simp [Mapnode.asks, due] at asks
      · intro mem
        obtain ⟨e', stored', _⟩ := rest.only key mem
        cases gone.symm.trans stored'
    · have longer := Mapnode.lifetime_aged dynamic due
      have there : w.st.rib.store key = some (e.1, e.2.aged) :=
        (h.stored_iff open_).mpr ⟨e.2, stored, longer, rfl⟩
      have asked : key ∈ first.map Prefix.key :=
        (now key).mpr ⟨e, stored, open_, by simp [Mapnode.asks, refreshed, due]⟩
      have times := rest.times key _ there open' refreshed
      dsimp only at times
      rw [times, List.count_eq_one_of_mem once asked]
      have lasts := e.2.aged.lifetime_pos
      omega
  only := fun key mem => by
    rw [List.map_append, List.mem_append] at mem
    rcases mem with mem | mem
    · obtain ⟨e, stored, open_, refreshed⟩ := rest.only key mem
      rw [h.sheltered_iff] at open_
      obtain ⟨mn, before, _, aged⟩ := (h.stored_iff open_).mp stored
      rw [aged] at refreshed
      exact ⟨_, before, open_, refreshed⟩
    · obtain ⟨e, stored, open_, asks⟩ := (now key).mp mem
      simp only [Mapnode.asks, Bool.and_eq_true] at asks
      exact ⟨e, stored, open_, asks.1⟩

/-- One pass, and then the others. -/
theorem Passed.idled (h : Passed lisp w) (rest : Idled k w.st final)
    : Idled (k + 1) lisp final where
  sheltered := fun key sheltered =>
    (rest.sheltered key (h.sheltered_iff.mpr sheltered)).trans (h.sheltered sheltered)
  lowered := fun _ open_ => h.lowered rest open_
  routes := h.routes rest
  asked := by
    obtain ⟨first, called, once, now⟩ := h.asked
    obtain ⟨later, called', asked⟩ := rest.asked
    refine ⟨later ++ first, ?_, h.asked_append once now asked⟩
    rw [called', called, List.append_assoc]

/-- Passes over a table without orphans return, and what passes leave is `Idled`. By induction on
the passes.
-/
theorem passes_idle (ok : TableOk lisp.rib) (k : Nat)
    : (lisp.rib.NoOrphans → ∃ final, run step lisp (List.replicate k .sweep) = .ok final)
      ∧ ∀ final, run step lisp (List.replicate k .sweep) = .ok final → Idled k lisp final := by
  induction k generalizing lisp with
  | zero =>
      refine ⟨fun _ => ⟨lisp, rfl⟩, fun final done => ?_⟩
      obtain rfl := Except.ok.inj done
      exact idled_zero
  | succ k ih =>
      rw [List.replicate_succ]
      rcases sweep_cases ok with ⟨⟨f, failed⟩, orphans, _⟩ | ⟨w, swept, after, clean, view, log⟩
      · refine ⟨fun clean => absurd clean orphans, fun final done => ?_⟩
        obtain ⟨next, first, _⟩ := EventRuns.run_cons_eq_ok.mp done
        rw [step, failed] at first
        cases first
      · have passed : Passed lisp w := ⟨ok, after, view, log⟩
        have first : step lisp .sweep = .ok w.st := by
          rw [step, swept]
          rfl
        constructor
        · intro none
          obtain ⟨final, done⟩ := (ih after).1 (clean none)
          exact ⟨final, EventRuns.run_cons_eq_ok.mpr ⟨_, first, done⟩⟩
        · intro final done
          obtain ⟨next, first', done⟩ := EventRuns.run_cons_eq_ok.mp done
          obtain rfl := Except.ok.inj (first.symm.trans first')
          exact passed.idled ((ih after).2 final done)

/-- However the daemon came to its table: as long as only the TTL thread works, its passes return
if there are no orphans, they leave what `Idled` says, and after 214748366 passes there are only
entries at or below a STATIC one.
-/
theorem idle_passes (reachable : Reachable step Lisp.start lisp) (k : Nat)
    : (lisp.rib.NoOrphans → ∃ final, run step lisp (List.replicate k .sweep) = .ok final)
      ∧ ∀ final, run step lisp (List.replicate k .sweep) = .ok final
        → Idled k lisp final
          ∧ (214748366 ≤ k → ∀ key e, final.rib.store key = some e
            → Sheltered lisp.rib.store key ∧ lisp.rib.store key = some e) := by
  obtain ⟨returns, idled⟩ := passes_idle (tableOk_of_reachable reachable) k
  refine ⟨returns, fun final done => ⟨idled final done, fun long key e stored => ?_⟩⟩
  by_cases sheltered : Sheltered lisp.rib.store key
  · exact ⟨sheltered, ((idled final done).sheltered key sheltered).symm.trans stored⟩
  · rw [(idled final done).lowered key sheltered] at stored
    obtain ⟨old, _, left⟩ := Option.bind_eq_some_iff.mp stored
    have short := old.2.lifetime_le
    rw [if_neg (by omega)] at left
    cases left

end

/-- A packet whose entry is allocated with the ttl 25. -/
def lastingPacket : RawPacket := { tenPacket with garbage := { Mapnode.zero with ttl := 25 } }

/-- Witness: its entry is asked for twice, and the third pass removes it. -/
theorem lastingPacket_idles
    : ∃ lisp final e, run step Lisp.start [.packet lastingPacket] = .ok lisp
        ∧ e ∈ lisp.rib.entries ∧ e.2.lifetime = 3
        ∧ run step lisp (List.replicate 2 .sweep) = .ok final ∧ Idled 2 lisp final := by
  obtain ⟨lisp, e, done, mem, lasts⟩ : ∃ lisp e,
      run step Lisp.start [.packet lastingPacket] = .ok lisp ∧ e ∈ lisp.rib.entries
      ∧ e.2.lifetime = 3 :=
    ⟨_, _, rfl, List.mem_singleton.mpr rfl, rfl⟩
  have clean : Clean lisp := clean_of_valid (fun ev only => by
    rw [List.mem_singleton.mp only]
    trivial) done
  obtain ⟨returns, idled⟩ := idle_passes ⟨_, done⟩ 2
  obtain ⟨final, passed⟩ := returns clean.2
  exact ⟨lisp, final, e, done, mem, lasts, passed, (idled final passed).1⟩

end Lixy
