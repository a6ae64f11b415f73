import Lixy.Daemon.ReplyPlacement

/-! What a positive Map-Reply record leaves at its prefix: the locator with the greatest priority
value, and a TTL of 32 bits that a refresh forgets.
-/

namespace Lixy

open ByteStrings
open LongestPrefix (best)
open EventRuns (run Reachable Guarded)

-----------------------------------------------------------------------------------------
-- Records as they come up
-----------------------------------------------------------------------------------------

/-- The daemon when the record at `record` of a Map-Reply comes up: on some reachable table, the
records in front of it have been processed.
-/
def ComesUp (pkt : List Byte) (record : Nat) (lisp : Lisp) : Prop :=
  ∃ before n, Reachable step Lisp.start before
    ∧ mapReplyRecords pkt n sizeofLispMapReply before = .ok (lisp, record)

theorem ComesUp.tableOk {pkt : List Byte} {record : Nat} {lisp : Lisp}
    (up : ComesUp pkt record lisp)
    : TableOk lisp.rib := by
  obtain ⟨before, n, reachable, front⟩ := up
  exact (mapReplyRecords_writes (tableOk_of_reachable reachable) front).1

/-- The first record comes up on every reachable table. -/
theorem comesUp_first {lisp : Lisp} (reachable : Reachable step Lisp.start lisp)
    (pkt : List Byte)
    : ComesUp pkt sizeofLispMapReply lisp :=
  ⟨lisp, 0, reachable, rfl⟩

-----------------------------------------------------------------------------------------
-- The locator
-----------------------------------------------------------------------------------------

/-- The offsets of `n` locators from `off` on. -/
def locatorOffsets (pkt : List Byte) : Nat → Nat → List Nat
  | 0, _ => []
  | n + 1, off =>
      off :: locatorOffsets pkt n (off + lispLocatorPktLen (locatorAfi pkt off))

/-- The offsets of a record's locators. -/
def recordLocatorOffsets (pkt : List Byte) (record : Nat) : List Nat :=
  locatorOffsets pkt (recordLocatorCount pkt record) (recordLocators pkt record)

/-- The priority of the locator at `off` -/
def locatorPriority (pkt : List Byte) (off : Nat) : Byte := byteAt pkt off

/-- The locator is the first in the order of the record that none is preferred to: a lower value
is preferred, and 255 is used where there is nothing else.
-/
structure Preferred (pkt : List Byte) (offs : List Nat) (off : Nat) : Prop where
  first
    : ∃ front back, offs = front ++ off :: back
        ∧ (∀ other ∈ front, locatorPriority pkt off < locatorPriority pkt other)
        ∧ ∀ other ∈ back, locatorPriority pkt off ≤ locatorPriority pkt other
  available
    : locatorPriority pkt off = 255 → ∀ other ∈ offs, locatorPriority pkt other = 255

/-- The entry at the prefix has the record's most preferred locator. -/
def InstallsPreferred (lisp : Lisp) (pkt : List Byte) (record : Nat) (pfx : Prefix) : Prop :=
  ∃ off e, Preferred pkt (recordLocatorOffsets pkt record) off
    ∧ entryAt lisp pfx.family pfx.key = some e ∧ e.2.state = .active
    ∧ lispLocatorPktToLocator pkt off = .ok e.2.locator ∧ e.2.addr = e.2.locator.locAddr

/-- All the locators have one priority. -/
def SamePriority (pkt : List Byte) (offs : List Nat) : Prop :=
  ∀ off ∈ offs, ∀ other ∈ offs, locatorPriority pkt off = locatorPriority pkt other

instance (pkt : List Byte) (offs : List Nat) : Decidable (SamePriority pkt offs) :=
  inferInstanceAs (Decidable (∀ off ∈ offs, ∀ other ∈ offs, _ = _))

section

variable {pkt : List Byte} {record : Nat} {lisp lisp' : Lisp} {pfx : Prefix}

/-- The loop ends with the first of the greatest priority values, of the locator it starts with
and those that it goes over; by induction on these.
-/
theorem selectedLocator_greatest (n lisploc tmplisploc : Nat)
    : ∃ front back,
        lisploc :: locatorOffsets pkt n tmplisploc
            = front ++ selectedLocator pkt n lisploc tmplisploc :: back
          ∧ (∀ other ∈ front, locatorPriority pkt other
            < locatorPriority pkt (selectedLocator pkt n lisploc tmplisploc))
          ∧ ∀ other ∈ back, locatorPriority pkt other
            ≤ locatorPriority pkt (selectedLocator pkt n lisploc tmplisploc) := by
  induction n generalizing lisploc tmplisploc with
  | zero => exact ⟨[], [], rfl, by simp, by simp⟩
  | succ n ih =>
      rw [selectedLocator, locatorOffsets]
      by_cases better : byteAt pkt lisploc < byteAt pkt tmplisploc
      · rw [if_pos better]
        obtain ⟨front, back, split, below, rest⟩ :=
          ih tmplisploc (tmplisploc + lispLocatorPktLen (locatorAfi pkt tmplisploc))
        refine ⟨lisploc :: front, back, by rw [split, List.cons_append], ?_, rest⟩
        rw [List.forall_mem_cons]
        refine ⟨?_, below⟩
        cases front with
        | nil =>
            obtain ⟨same, _⟩ := List.cons.inj split
            rwa [← same]
        | cons head front =>
            obtain ⟨rfl, _⟩ := List.cons.inj split
            exact BitVec.lt_trans better (below _ List.mem_cons_self)
      · rw [if_neg better]
        obtain ⟨front, back, split, below, rest⟩ :=
          ih lisploc (tmplisploc + lispLocatorPktLen (locatorAfi pkt tmplisploc))
        have offered : locatorPriority pkt tmplisploc ≤ locatorPriority pkt lisploc :=
          BitVec.not_lt.mp better
        cases front with
        | nil =>
            obtain ⟨same, rfl⟩ := List.cons.inj split
            refine ⟨[], _ :: _, by rw [← same, List.nil_append], by simp, ?_⟩
            rw [List.forall_mem_cons, ← same]
            rw [← same] at rest
            exact ⟨offered, rest⟩
        | cons head front =>
            obtain ⟨rfl, behind⟩ := List.cons.inj split
            refine ⟨lisploc :: tmplisploc :: front, back, by rw [behind]; rfl, ?_, rest⟩
            rw [List.forall_mem_cons] at below ⊢
            rw [List.forall_mem_cons]
            exact ⟨below.1, Nat.lt_of_le_of_lt offered below.1, below.2⟩

/-- A record's selected locator has the greatest priority value, and is the first locator where
all have the same.
-/
theorem recordSelected_greatest (located : recordLocatorCount pkt record ≠ 0)
    : (∀ off ∈ recordLocatorOffsets pkt record,
        locatorPriority pkt off ≤ locatorPriority pkt (recordSelected pkt record))
      ∧ (SamePriority pkt (recordLocatorOffsets pkt record)
        → ∃ rest, recordLocatorOffsets pkt record = recordSelected pkt record :: rest) := by
  obtain ⟨front, back, split, below, rest⟩ := @selectedLocator_greatest pkt
    (recordLocatorCount pkt record) (recordLocators pkt record) (recordLocators pkt record)
  change recordLocators pkt record :: recordLocatorOffsets pkt record
    = front ++ recordSelected pkt record :: back at split
  have greatest : ∀ off ∈ recordLocatorOffsets pkt record,
      locatorPriority pkt off ≤ locatorPriority pkt (recordSelected pkt record) := by
    intro off mem
    have among : off ∈ front ++ recordSelected pkt record :: back :=
      split ▸ List.mem_cons_of_mem _ mem
    rcases List.mem_append.mp among with before | behind
    · exact BitVec.le_of_lt (below off before)
    · rcases List.mem_cons.mp behind with rfl | behind
      · exact BitVec.le_refl _
      · exact rest off behind
  refine ⟨greatest, fun same => ?_⟩
  obtain ⟨n, count⟩ := Nat.exists_eq_succ_of_ne_zero located
  have offsets : ∃ others, recordLocatorOffsets pkt record
      = recordLocators pkt record :: others := by
    rw [recordLocatorOffsets, count]
    exact ⟨_, rfl⟩
  obtain ⟨others, offsets⟩ := offsets
  cases front with
  | nil =>
      obtain ⟨first, _⟩ := List.cons.inj split
      exact ⟨others, by rw [← first]; exact offsets⟩
  | cons head front =>
      -- nothing is smaller than what it is equal to
      obtain ⟨rfl, behind⟩ := List.cons.inj split
      have there : recordSelected pkt record ∈ recordLocatorOffsets pkt record := by
        rw [behind]
        simp
      have first : recordLocators pkt record ∈ recordLocatorOffsets pkt record := by
        rw [offsets]
        exact List.mem_cons_self
      have equal := same _ first _ there
      have less := below _ List.mem_cons_self
      rw [equal] at less
      exact absurd less (BitVec.lt_irrefl _)

/-- A locator that is read has the priority at its offset. -/
theorem lispLocatorPktToLocator_priority {off : Nat} {locator : Locator}
    (read : lispLocatorPktToLocator pkt off = .ok locator)
    : locator.priority = locatorPriority pkt off := by
  obtain ⟨_, _, read⟩ := bind_eq_ok.mp read
  obtain ⟨_, _, read⟩ := bind_eq_ok.mp read
  obtain ⟨_, priority, read⟩ := bind_eq_ok.mp read
  obtain ⟨_, _, read⟩ := bind_eq_ok.mp read
  obtain ⟨_, _, read⟩ := bind_eq_ok.mp read
  obtain ⟨_, _, read⟩ := bind_eq_ok.mp read
  obtain rfl := pure_eq_ok.mp read
  exact (rd_eq_ok.mp priority).2

/-- A record that is learned installs the most preferred locator exactly when all its locators
have one priority.
-/
theorem installsPreferred_iff {next : Nat} {more : Bool} (ok : TableOk lisp.rib)
    (located : recordLocatorCount pkt record ≠ 0) (parsed : recordPrefix pkt record = .ok pfx)
    (valid : pfx.Valid) (uncovered : best lisp.rib.store pfx.key = none)
    (done : mapReplyRecord pkt record lisp = .ok (lisp', next, more))
    : InstallsPreferred lisp' pkt record pfx
      ↔ SamePriority pkt (recordLocatorOffsets pkt record) := by
  obtain ⟨greatest, first⟩ := recordSelected_greatest located
  rcases mapReplyRecord_located ok located parsed valid done
    with ⟨_, recordTtl, locator, _, selected, store⟩ | ⟨e, found, _⟩
  · have absent := LongestPrefix.best_eq_none_iff.mp uncovered _ List.prefix_rfl
    obtain ⟨⟨copy, here⟩, _⟩ := entryAt_learned valid absent store
    constructor
    · rintro ⟨off, e, preferred, there, _, read, _⟩
      obtain rfl := Option.some.inj (here.symm.trans there)
      -- what is preferred to all has the greatest value too
      have least : locatorPriority pkt off = locatorPriority pkt (recordSelected pkt record) :=
        (lispLocatorPktToLocator_priority read).symm.trans
          (lispLocatorPktToLocator_priority selected)
      have equal : ∀ other ∈ recordLocatorOffsets pkt record,
          locatorPriority pkt other = locatorPriority pkt off := by
        intro other mem
        refine BitVec.le_antisymm (least ▸ greatest other mem) ?_
        obtain ⟨front, back, split, above, rest⟩ := preferred.first
        rw [split] at mem
        rcases List.mem_append.mp mem with before | behind
        · exact BitVec.le_of_lt (above other before)
        · rcases List.mem_cons.mp behind with rfl | behind
          · exact BitVec.le_refl _
          · exact rest other behind
      intro one mem other mem'
      rw [equal one mem, equal other mem']
    · intro same
      obtain ⟨rest, offsets⟩ := first same
      have there : recordSelected pkt record ∈ recordLocatorOffsets pkt record := by
        rw [offsets]
        exact List.mem_cons_self
      refine ⟨recordSelected pkt record, _, ⟨⟨[], rest, offsets, by simp, ?_⟩, ?_⟩, here, rfl,
        selected, rfl⟩
      · intro other mem
        have equal := same _ there other (offsets ▸ List.mem_cons_of_mem _ mem)
        rw [equal]
        exact BitVec.le_refl _
      · intro last other mem
        rw [same other mem _ there, last]
  · cases uncovered.symm.trans found

end

/-- A record with locators that comes up where nothing covers its prefix installs the most
preferred of them exactly when they all have one priority: the loop takes the greatest value.
-/
theorem reply_installsPreferred_iff {pkt : List Byte} {record next : Nat} {more : Bool}
    {lisp lisp' : Lisp} {pfx : Prefix} (up : ComesUp pkt record lisp)
    (located : 1 ≤ recordLocatorCount pkt record) (parsed : recordPrefix pkt record = .ok pfx)
    (valid : pfx.Valid) (uncovered : best lisp.rib.store pfx.key = none)
    (done : mapReplyRecord pkt record lisp = .ok (lisp', next, more))
    : InstallsPreferred lisp' pkt record pfx
      ↔ SamePriority pkt (recordLocatorOffsets pkt record) :=
  installsPreferred_iff up.tableOk (Nat.one_le_iff_ne_zero.mp located) parsed valid uncovered done

/-- A Map-Reply with one record, for 10.0.0.0/8, with two locators of priority 1: 192.0.2.1 and
192.0.2.2.
-/
def equalReply : List Byte :=
  [0x28, 0, 0, 1, 0, 0, 0, 0, 0, 0, 0, 0,
    0, 0, 0, 10, 2, 8, 0, 0, 0, 0, 0, 1, 10, 0, 0, 0,
    1, 100, 0, 0, 0, 5, 0, 1, 192, 0, 2, 1,
    1, 100, 0, 0, 0, 5, 0, 1, 192, 0, 2, 2]

set_option maxRecDepth 4000 in
/-- Beside a STATIC entry for 10.128.0.0/9 the first of its locators is installed. -/
theorem equalReply_installsPreferred
    : ∃ lisp lisp' e, run step Lisp.start [.installRoute nineNet .zero] = .ok lisp
        ∧ mapReplyRecord equalReply sizeofLispMapReply lisp = .ok (lisp', 52, true)
        ∧ InstallsPreferred lisp' equalReply sizeofLispMapReply tenPrefix
        ∧ lisp'.rib.store tenPrefix.key = some e ∧ e.2.addr.sinAddr.toList = [192, 0, 2, 1] := by
  obtain ⟨lisp, lisp', e, ran, done, beside, there, addr⟩
      : ∃ lisp lisp' e, run step Lisp.start [.installRoute nineNet .zero] = .ok lisp
        ∧ mapReplyRecord equalReply sizeofLispMapReply lisp = .ok (lisp', 52, true)
        ∧ best lisp.rib.store tenPrefix.key = none
        ∧ lisp'.rib.store tenPrefix.key = some e ∧ e.2.addr.sinAddr.toList = [192, 0, 2, 1] :=
    ⟨_, _, _, rfl, rfl, rfl, rfl, rfl⟩
  have parsed : recordPrefix equalReply sizeofLispMapReply = .ok tenPrefix := by decide
  have iff := reply_installsPreferred_iff (comesUp_first ⟨_, ran⟩ equalReply) (by decide) parsed
    (by decide) beside done
  exact ⟨lisp, lisp', e, ran, done, iff.mpr (by decide), there, addr⟩

/-- A Map-Reply with one record, for 10.0.0.0/8, with two locators: 192.0.2.1 of priority 1 and
192.0.2.2 of priority 255.
-/
def unusableReply : List Byte :=
  [0x28, 0, 0, 1, 0, 0, 0, 0, 0, 0, 0, 0,
    0, 0, 0, 10, 2, 8, 0, 0, 0, 0, 0, 1, 10, 0, 0, 0,
    1, 100, 0, 0, 0, 5, 0, 1, 192, 0, 2, 1,
    255, 100, 0, 0, 0, 5, 0, 1, 192, 0, 2, 2]

set_option maxRecDepth 4000 in
/-- It is processed on an empty table, and the locator that is not to be used is installed. -/
theorem unusableReply_not_preferred
    : ¬ ∀ (pkt : List Byte) (record next : Nat) (more : Bool) (lisp lisp' : Lisp) (pfx : Prefix),
        ComesUp pkt record lisp → 1 ≤ recordLocatorCount pkt record
          → recordPrefix pkt record = .ok pfx → pfx.Valid
          → best lisp.rib.store pfx.key = none
          → mapReplyRecord pkt record lisp = .ok (lisp', next, more)
          → InstallsPreferred lisp' pkt record pfx := by
  intro installs
  obtain ⟨lisp', pfx, parsed, valid, done⟩
      : ∃ lisp' pfx, recordPrefix unusableReply sizeofLispMapReply = .ok pfx ∧ pfx.Valid
        ∧ mapReplyRecord unusableReply sizeofLispMapReply Lisp.start = .ok (lisp', 52, true) :=
    ⟨_, _, rfl, by decide, rfl⟩
  have uncovered : best Lisp.start.rib.store pfx.key = none :=
    LongestPrefix.best_eq_none_iff.mpr fun _ _ => rfl
  have preferred := installs unusableReply sizeofLispMapReply 52 true Lisp.start lisp' pfx
    (comesUp_first (Reachable.init Lisp.start) unusableReply) (by decide) parsed valid uncovered
    done
  have same := (installsPreferred_iff tableOk_createMaptable (by decide) parsed valid uncovered
    done).mp preferred
  exact absurd same (by decide)

-----------------------------------------------------------------------------------------
-- The TTL
-----------------------------------------------------------------------------------------

/-- The lifetime in seconds that a record of `recordTtl` minutes asks for. -/
def lifetime (recordTtl : BitVec 32) : Int := min (60 * recordTtl.toNat) (2 ^ 31 - 1)

/-- The passes of the TTL thread among the events -/
def passes : List Event → Nat
  | [] => 0
  | .sweep :: rest => passes rest + 1
  | _ :: rest => passes rest

/-- The event is a pass, or it leaves the entry at the prefix as it is. -/
def Untouched (pfx : Prefix) (lisp : Lisp) (ev : Event) : Prop :=
  ev = .sweep
    ∨ ∀ next, step lisp ev = .ok next
      → entryAt next pfx.family pfx.key = entryAt lisp pfx.family pfx.key

/-- The entry at the prefix is there after every run with less than `life` seconds of passes
that nothing else touches it in.
-/
def Lasts (lisp : Lisp) (pfx : Prefix) (life : Int) : Prop :=
  ∀ events final, EventRuns.Guarded step (Untouched pfx) lisp events
    → run step lisp events = .ok final → passes events * mapttlCheckInterval.toInt < life
    → ∃ e, entryAt final pfx.family pfx.key = some e ∧ e.2.state = .active

/-- The entry at the prefix has the record's lifetime, stored and lived. -/
def Honoured (lisp : Lisp) (pfx : Prefix) (recordTtl : BitVec 32) : Prop :=
  (∃ e, entryAt lisp pfx.family pfx.key = some e ∧ e.2.ttl.toInt = lifetime recordTtl)
    ∧ Lasts lisp pfx (lifetime recordTtl)

section

variable {pkt : List Byte} {record : Nat} {lisp lisp' : Lisp} {pfx : Prefix}

/-- A pass costs a dynamic entry at most its interval, and keeps it if something remains. -/
theorem sweep_keeps {e : Prefix × Mapnode} (ok : TableOk lisp.rib)
    (here : entryAt lisp pfx.family pfx.key = some e) (active : e.2.state = .active)
    (lasts : 10 < e.2.ttl.toInt) (done : step lisp .sweep = .ok lisp')
    : ∃ e', entryAt lisp' pfx.family pfx.key = some e' ∧ e'.2.state = .active
        ∧ e.2.ttl.toInt - 10 ≤ e'.2.ttl.toInt := by
  obtain ⟨w, pass, done⟩ := bind_eq_ok.mp done
  obtain rfl := pure_eq_ok.mp done
  rcases sweep_cases ok with ⟨⟨f, failed⟩, _⟩ | ⟨w', pass', after, _, view, log⟩
  · cases failed.symm.trans pass
  · obtain rfl := Except.ok.inj (pass.symm.trans pass')
    have passed : Passed lisp w := ⟨ok, after, view, log⟩
    obtain ⟨stored, family⟩ := entryAt_eq_some.mp here
    obtain ⟨mem, key⟩ := ok.store_eq_some_iff.mp stored
    have dynamic : e.2.state ≠ .static := by
      rw [active]
      decide
    by_cases visit : e ∈ visited lisp.head
    · have inRange : -2147483638 ≤ e.2.ttl.toInt := by omega
      have kept : e.2.expires = false := by
        rw [← Bool.not_eq_true, Mapnode.expires_iff dynamic inRange]
        omega
      have aged := passed.dynamic visit dynamic
      rw [kept, key] at aged
      refine ⟨(e.1, e.2.aged), entryAt_eq_some.mpr ⟨aged, family⟩, active, ?_⟩
      rw [aged_ttl, if_pos inRange]
    · have stays := passed.unvisited mem visit
      rw [key] at stays
      exact ⟨e, entryAt_eq_some.mpr ⟨stays, family⟩, active, by omega⟩

/-- An ACTIVE entry survives for as long as its ttl says; by induction on the run, with what is
left of the ttl at every pass.
-/
theorem lasts_ttl {e : Prefix × Mapnode} (ok : TableOk lisp.rib)
    (here : entryAt lisp pfx.family pfx.key = some e) (active : e.2.state = .active)
    : Lasts lisp pfx e.2.ttl.toInt := by
  intro events final untouched ran
  rw [show mapttlCheckInterval.toInt = 10 by decide]
  intro lasts
  induction events generalizing lisp e with
  | nil =>
      obtain rfl := Except.ok.inj ran
      exact ⟨e, here, active⟩
  | cons ev rest ih =>
      obtain ⟨next, done, rest_ran⟩ := EventRuns.run_cons_eq_ok.mp ran
      have ok' := (step_writes ok done).1
      have later := untouched.2 next done
      by_cases pass : ev = .sweep
      · subst pass
        rw [passes] at lasts
        obtain ⟨e', here', active', left⟩ := sweep_keeps ok here active (by omega) done
        exact ih ok' here' active' later rest_ran (by omega)
      · have same := (untouched.1.resolve_left pass) next done
        have count : passes (ev :: rest) = passes rest := by
          cases ev with
          | sweep => exact absurd rfl pass
          | message _ _ | packet _ | installRoute _ _ | uninstallRoute _ => rfl
        rw [count] at lasts
        exact ih ok' (same.trans here) active later rest_ran lasts

/-- So an ACTIVE entry is honoured where the stored ttl is the lifetime. -/
theorem honoured_iff {e : Prefix × Mapnode} {recordTtl : BitVec 32} (ok : TableOk lisp.rib)
    (here : entryAt lisp pfx.family pfx.key = some e) (active : e.2.state = .active)
    : Honoured lisp pfx recordTtl ↔ e.2.ttl.toInt = lifetime recordTtl := by
  constructor
  · rintro ⟨⟨e', there, ttl⟩, _⟩
    obtain rfl := Option.some.inj (here.symm.trans there)
    exact ttl
  · intro ttl
    exact ⟨⟨e, here, ttl⟩, ttl ▸ lasts_ttl ok here active⟩

/-- The ttl of a record that is learned is its lifetime unless the product leaves 31 bits. -/
theorem learned_ttl_iff (recordTtl : BitVec 32)
    : (recordTtl * 60).toInt = lifetime recordTtl ↔ 60 * recordTtl.toNat < 2 ^ 31 := by
  have product : (recordTtl * 60).toNat = recordTtl.toNat * 60 % 4294967296 := by
    rw [BitVec.toNat_mul]
    rfl
  rw [lifetime, BitVec.toInt_eq_toNat_cond, product]
  split <;> omega

/-- A positive record whose prefix has an entry afterwards made it, or refreshed it. -/
theorem mapReplyRecord_entryAt {next : Nat} {more : Bool} {e' : Prefix × Mapnode}
    (ok : TableOk lisp.rib) (located : recordLocatorCount pkt record ≠ 0)
    (parsed : recordPrefix pkt record = .ok pfx) (valid : pfx.Valid)
    (done : mapReplyRecord pkt record lisp = .ok (lisp', next, more))
    (there : entryAt lisp' pfx.family pfx.key = some e')
    : (entryAt lisp pfx.family pfx.key = none
        ∧ ∃ recordTtl, rd32 pkt record = .ok recordTtl ∧ e'.2.ttl = recordTtl * 60)
      ∨ (entryAt lisp pfx.family pfx.key ≠ none ∧ e'.2.ttl = mapttlDefault) := by
  rcases mapReplyRecord_located ok located parsed valid done
    with ⟨missed, recordTtl, locator, read, _, store⟩ | ⟨e, found, store⟩
  · have absent := LongestPrefix.best_eq_none_iff.mp missed _ List.prefix_rfl
    obtain ⟨⟨copy, here⟩, _⟩ := entryAt_learned valid absent store
    obtain rfl := Option.some.inj (here.symm.trans there)
    refine .inl ⟨entryAt_eq_none fun e stored => ?_, recordTtl, read, rfl⟩
    cases absent.symm.trans stored
  · obtain ⟨_, stored, _⟩ := LongestPrefix.best_eq_some_iff.mp found
    obtain ⟨stored', family⟩ := entryAt_eq_some.mp there
    by_cases own : pfx.key = e.1.key
    · rw [store, own, LongestPrefix.insert_self] at stored'
      obtain rfl := Option.some.inj stored'
      have before : entryAt lisp pfx.family pfx.key = some e :=
        entryAt_eq_some.mpr ⟨own ▸ stored, family⟩
      exact .inr ⟨by simp [before], rfl⟩
    · -- an entry at the prefix itself would have been the best match
      rw [store, LongestPrefix.insert_of_ne _ _ own] at stored'
      have self := LongestPrefix.best_self stored'
      exact absurd (Prod.mk.inj (Option.some.inj (self.symm.trans found))).1 own

/-- The TTL of a positive record is honoured where the record makes the entry and the product
is less than `2 ^ 31`, or where it refreshes the entry and is the default of one minute.
-/
theorem mapReplyRecord_honoured_iff {next : Nat} {more : Bool} {e' : Prefix × Mapnode}
    {recordTtl : BitVec 32} (ok : TableOk lisp.rib)
    (located : recordLocatorCount pkt record ≠ 0) (parsed : recordPrefix pkt record = .ok pfx)
    (valid : pfx.Valid) (read : rd32 pkt record = .ok recordTtl)
    (done : mapReplyRecord pkt record lisp = .ok (lisp', next, more))
    (there : entryAt lisp' pfx.family pfx.key = some e') (active : e'.2.state = .active)
    : Honoured lisp' pfx recordTtl
      ↔ entryAt lisp pfx.family pfx.key = none ∧ 60 * recordTtl.toNat < 2 ^ 31
        ∨ entryAt lisp pfx.family pfx.key ≠ none ∧ recordTtl.toNat = 1 := by
  have ok' := ((mapReplyRecord_effect done).2.writes ok).1
  rw [honoured_iff ok' there active]
  rcases mapReplyRecord_entryAt ok located parsed valid done there
    with ⟨absent, recordTtl', read', ttl⟩ | ⟨present, ttl⟩
  · obtain rfl := Except.ok.inj (read.symm.trans read')
    simp only [ttl, learned_ttl_iff, absent, true_and, ne_eq, not_true, false_and, or_false]
  · have default : mapttlDefault.toInt = 60 := by decide
    rw [ttl, default, lifetime]
    simp only [present, false_and, false_or, ne_eq, not_false_eq_true, true_and]
    omega

end

/-- The TTL of a record that comes up, and whose entry is ACTIVE afterwards, is honoured exactly
where the record makes the entry and its seconds are less than `2 ^ 31`, or where it refreshes
the entry and is one minute.
-/
theorem reply_honoured_iff {pkt : List Byte} {record next : Nat} {more : Bool}
    {lisp lisp' : Lisp} {pfx : Prefix} {recordTtl : BitVec 32} {e' : Prefix × Mapnode}
    (up : ComesUp pkt record lisp) (located : 1 ≤ recordLocatorCount pkt record)
    (parsed : recordPrefix pkt record = .ok pfx) (valid : pfx.Valid)
    (read : rd32 pkt record = .ok recordTtl)
    (done : mapReplyRecord pkt record lisp = .ok (lisp', next, more))
    (there : entryAt lisp' pfx.family pfx.key = some e') (active : e'.2.state = .active)
    : Honoured lisp' pfx recordTtl
      ↔ entryAt lisp pfx.family pfx.key = none ∧ 60 * recordTtl.toNat < 2 ^ 31
        ∨ entryAt lisp pfx.family pfx.key ≠ none ∧ recordTtl.toNat = 1 :=
  mapReplyRecord_honoured_iff up.tableOk (Nat.one_le_iff_ne_zero.mp located) parsed valid read
    done there active

/-- The reply for 10.0.0.0/8 with a TTL of one minute. -/
def minuteReply : List Byte :=
  [0x28, 0, 0, 1, 0, 0, 0, 0, 0, 0, 0, 0,
    0, 0, 0, 1, 1, 8, 0, 0, 0, 0, 0, 1, 10, 0, 0, 0,
    1, 100, 0, 0, 0, 5, 0, 1, 192, 0, 2, 1]

/-- A STATIC entry for 10.128.0.0/9 and a learned one for 10.1.0.0/16. -/
def besideTen : List Event := [.installRoute nineNet .zero, .message 40 sixteenReply]

set_option maxRecDepth 4000 in
/-- Beside these entries the ten minutes of the reply for 10.0.0.0/8 are honoured, and so is one
minute by which the entry is refreshed.
-/
theorem tenReply_honoured
    : ∃ lisp learned lisp' lisp'', run step Lisp.start besideTen = .ok lisp
        ∧ mapReplyRecord tenReply sizeofLispMapReply lisp = .ok (lisp', 40, true)
        ∧ Honoured lisp' tenPrefix 10
        ∧ run step Lisp.start (besideTen ++ [.message 40 tenReply]) = .ok learned
        ∧ mapReplyRecord minuteReply sizeofLispMapReply learned = .ok (lisp'', 40, false)
        ∧ Honoured lisp'' tenPrefix 1 := by
  obtain ⟨lisp, lisp', e', ran, done, absent, there, active⟩
      : ∃ lisp lisp' e', run step Lisp.start besideTen = .ok lisp
        ∧ mapReplyRecord tenReply sizeofLispMapReply lisp = .ok (lisp', 40, true)
        ∧ entryAt lisp tenPrefix.family tenPrefix.key = none
        ∧ entryAt lisp' tenPrefix.family tenPrefix.key = some e' ∧ e'.2.state = .active :=
    ⟨_, _, _, rfl, rfl, rfl, rfl, rfl⟩
  obtain ⟨learned, lisp'', e'', ran', done', present, there', active'⟩
      : ∃ learned lisp'' e'',
        run step Lisp.start (besideTen ++ [.message 40 tenReply]) = .ok learned
        ∧ mapReplyRecord minuteReply sizeofLispMapReply learned = .ok (lisp'', 40, false)
        ∧ entryAt learned tenPrefix.family tenPrefix.key ≠ none
        ∧ entryAt lisp'' tenPrefix.family tenPrefix.key = some e'' ∧ e''.2.state = .active :=
    ⟨_, _, _, rfl, rfl, by decide, rfl, rfl⟩
  have parsed : recordPrefix tenReply sizeofLispMapReply = .ok tenPrefix := by decide
  have parsed' : recordPrefix minuteReply sizeofLispMapReply = .ok tenPrefix := by decide
  have first := reply_honoured_iff (comesUp_first ⟨_, ran⟩ tenReply) (by decide) parsed
    (by decide) rfl done there active
  have again := reply_honoured_iff (comesUp_first ⟨_, ran'⟩ minuteReply) (by decide) parsed'
    (by decide) rfl done' there' active'
  exact ⟨lisp, learned, lisp', lisp'', ran, done, first.mpr (.inl ⟨absent, by decide⟩), ran', done',
    again.mpr (.inr ⟨present, rfl⟩)⟩

set_option maxRecDepth 4000 in
/-- The same reply a second time leaves the entry one minute. -/
theorem tenReply_not_honoured_again
    : ¬ ∀ (pkt : List Byte) (record next : Nat) (more : Bool) (lisp lisp' : Lisp) (pfx : Prefix)
          (recordTtl : BitVec 32) (e' : Prefix × Mapnode),
        ComesUp pkt record lisp → 1 ≤ recordLocatorCount pkt record
          → recordPrefix pkt record = .ok pfx → pfx.Valid
          → rd32 pkt record = .ok recordTtl → 1 ≤ recordTtl.toNat
          → mapReplyRecord pkt record lisp = .ok (lisp', next, more)
          → entryAt lisp' pfx.family pfx.key = some e' → e'.2.state = .active
          → Honoured lisp' pfx recordTtl := by
  intro honours
  obtain ⟨lisp, lisp', e', ran, before, done, there, active⟩
      : ∃ lisp lisp' e', run step Lisp.start [.message 40 tenReply] = .ok lisp
        ∧ entryAt lisp tenPrefix.family tenPrefix.key ≠ none
        ∧ mapReplyRecord tenReply sizeofLispMapReply lisp = .ok (lisp', 40, false)
        ∧ entryAt lisp' tenPrefix.family tenPrefix.key = some e' ∧ e'.2.state = .active :=
    ⟨_, _, _, rfl, by decide, rfl, rfl, rfl⟩
  have up : ComesUp tenReply sizeofLispMapReply lisp := comesUp_first ⟨_, ran⟩ tenReply
  have parsed : recordPrefix tenReply sizeofLispMapReply = .ok tenPrefix := by decide
  have honoured := honours _ _ _ _ _ _ _ 10 e' up (by decide) parsed (by decide) rfl (by decide)
    done there active
  rcases (mapReplyRecord_honoured_iff up.tableOk (by decide) parsed (by decide) rfl done there
    active).mp honoured with ⟨absent, _⟩ | ⟨_, one⟩
  · exact before absent
  · exact absurd one (by decide)

end Lixy
