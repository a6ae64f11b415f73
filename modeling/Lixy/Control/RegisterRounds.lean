import Lixy.Control.EidStore
import Lixy.Messages.BufferBounds

/-! Authentication keys and the rounds of `lisp_map_register_thread`. A key that fills its field
leaves no room for its NUL; a failing `sendto` ends an EID's registrations, unless it is the
last of them.
-/

namespace Lixy.Control

open ByteStrings

-----------------------------------------------------------------------------------------
-- Authentication keys
-----------------------------------------------------------------------------------------

/-- The EID at `place` has the key, read as a C string, and nothing else changed. -/
structure KeySet (st st' : Lixyd) (place : Nat) (key : List Byte) : Prop where
  set
    : ∃ eid eid', st.eidTuple.nodes[place]? = some eid ∧ st'.eidTuple.nodes[place]? = some eid'
        ∧ eid'.name = eid.name ∧ eid'.prefixTuple = eid.prefixTuple
        ∧ rdString eid'.authkey.toList 0 = .ok key
  others : ∀ other, other ≠ place → st'.eidTuple.nodes[other]? = st.eidTuple.nodes[other]?
  count : st'.eidTuple.count = st.eidTuple.count
  locTuple : st'.locTuple = st.locTuple
  mapsrvTuple : st'.mapsrvTuple = st.mapsrvTuple
  lisp : st'.lisp = st.lisp

section

variable {st : Lixyd} {args : Args} {name key : List Byte} {place : Nat} {eid : Eid}

/-- A key that is not too long is copied with its NUL. -/
theorem cmdSetEidAuthenticationKey_found (named : args 1 = some name) (given : args 3 = some key)
    (found : searchEid name st = some (place, eid)) (accepted : key.length ≤ lispMaxKeylen)
    : cmdSetEidAuthenticationKey args st
      = memcpy eid.authkey (key ++ [0]) >>= fun authkey =>
          answer .success (st.writeEid place { eid with authkey }) := by
  have short : ¬ key.length > lispMaxKeylen := Nat.not_lt.mpr accepted
  simp only [cmdSetEidAuthenticationKey, named, given, present, bind, Except.bind, found,
    if_neg short]

/-- Writing another key to an EID that is found sets just that. -/
theorem keySet_writeEid (found : searchEid name st = some (place, eid))
    {authkey : Bytes lispMaxKeylen} (read : rdString authkey.toList 0 = .ok key)
    : KeySet st (st.writeEid place { eid with authkey }) place key := by
  obtain ⟨front, back, split, rfl, _⟩ := searchListnode_split found
  have written := ListT.write_split split rfl { eid with authkey }
  exact {
    set := ⟨eid, { eid with authkey }, by simp [split], by simp [Lixyd.writeEid, written], rfl, rfl,
      read⟩
    others := fun other ne => List.getElem?_set_ne ne.symm
    count := rfl
    locTuple := rfl
    mapsrvTuple := rfl
    lisp := rfl }

/-- A key whose NUL has room in the field sets just the key. -/
theorem cmdSetEidAuthenticationKey_sets (named : args 1 = some name) (given : args 3 = some key)
    (string : 0 ∉ key) (found : searchEid name st = some (place, eid))
    (short : key.length < lispMaxKeylen)
    : ∃ st', cmdSetEidAuthenticationKey args st = .ok (.success, st')
        ∧ KeySet st st' place key := by
  obtain ⟨authkey, copied, ends, text⟩ := memcpy_key eid.authkey ⟨⟨key, string⟩, short⟩
  have read : rdString authkey.toList 0 = .ok key := by
    rw [rdString, List.drop_zero, if_pos ends, text]
  refine ⟨_, ?_, keySet_writeEid found read⟩
  rw [cmdSetEidAuthenticationKey_found named given found (Nat.le_of_lt short), copied]
  rfl

/-- The NUL of a key as long as the field goes behind it. -/
theorem cmdSetEidAuthenticationKey_overflows (named : args 1 = some name)
    (given : args 3 = some key) (found : searchEid name st = some (place, eid))
    (full : key.length = lispMaxKeylen)
    : cmdSetEidAuthenticationKey args st = .error (.overflow lispMaxKeylen) := by
  have past : ¬ (key ++ [0]).length ≤ lispMaxKeylen := by
    rw [List.length_append, full]
    decide
  rw [cmdSetEidAuthenticationKey_found named given found (Nat.le_of_eq full), memcpy, dif_neg past]
  rfl

/-- A key that is accepted for an EID sets just the key, exactly when it does not fill its
field.
-/
theorem cmdSetEidAuthenticationKey_sets_iff (named : args 1 = some name)
    (given : args 3 = some key) (string : 0 ∉ key) (found : searchEid name st = some (place, eid))
    (accepted : key.length ≤ lispMaxKeylen)
    : (∃ st', cmdSetEidAuthenticationKey args st = .ok (.success, st') ∧ KeySet st st' place key)
      ↔ key.length < lispMaxKeylen := by
  constructor
  · rintro ⟨st', set, _⟩
    refine Nat.lt_of_le_of_ne accepted fun full => ?_
    rw [cmdSetEidAuthenticationKey_overflows named given found full] at set
    cases set
  · exact cmdSetEidAuthenticationKey_sets named given string found

end

/-- The words ` eid a authkey KEY`. -/
def testKeyArgs (key : List Byte) : Args := ([ascii "eid", ascii "a", ascii "authkey", key][·]?)

/-- A daemon with the EID `a`. -/
def testEidLixyd : Lixyd :=
  { Lixyd.start with eidTuple := listOf [createEidInstance (ascii "a")] }

theorem testEid_found
    : searchEid (ascii "a") testEidLixyd = some (0, createEidInstance (ascii "a")) := rfl

/-- Witness: the key `k` is set. -/
theorem testKey_set
    : ∃ st', cmdSetEidAuthenticationKey (testKeyArgs (ascii "k")) testEidLixyd = .ok (.success, st')
        ∧ KeySet testEidLixyd st' 0 (ascii "k") :=
  (cmdSetEidAuthenticationKey_sets_iff rfl rfl (by decide) testEid_found (by decide)).mpr
    (by decide)

/-- A key of 128 bytes is not too long, and its NUL is the first byte of the prefix list's
pointer.
-/
theorem fullKey_overflows
    : ¬ ∀ (st : Lixyd) (args : Args) (name key : List Byte) (place : Nat) (eid : Eid),
        args 1 = some name → args 3 = some key → 0 ∉ key
        → searchEid name st = some (place, eid) → key.length ≤ lispMaxKeylen
        → ∃ st', cmdSetEidAuthenticationKey args st = .ok (.success, st')
            ∧ KeySet st st' place key := by
  intro sets
  have full : (List.replicate lispMaxKeylen (0x61 : Byte)).length = lispMaxKeylen :=
    List.length_replicate
  have string : 0 ∉ List.replicate lispMaxKeylen (0x61 : Byte) := by
    intro mem
    cases List.eq_of_mem_replicate mem
  obtain ⟨st', set, _⟩ := sets testEidLixyd
    (testKeyArgs (List.replicate lispMaxKeylen 0x61)) (ascii "a") _ 0 _ rfl rfl string
    testEid_found (Nat.le_of_eq full)
  rw [cmdSetEidAuthenticationKey_overflows rfl rfl testEid_found full] at set
  cases set

-----------------------------------------------------------------------------------------
-- Calls up to a failure
-----------------------------------------------------------------------------------------

section

variable {α : Type} (fails : Nat → Bool)

/-- What is left of a sequence of calls, numbered from `n` on, when the first that fails is the
last.
-/
def untilFailure : Nat → List α → List α
  | _, [] => []
  | n, call :: rest => call :: if fails n then [] else untilFailure (n + 1) rest

/-- None of `count` calls from `n` on fails. -/
def AllSucceed (n count : Nat) : Prop := ∀ j < count, fails (n + j) = false

variable {fails} {n : Nat} {calls more : List α}

theorem allSucceed_succ {count : Nat}
    : AllSucceed fails n (count + 1) ↔ fails n = false ∧ AllSucceed fails (n + 1) count := by
  constructor
  · intro succeed
    refine ⟨succeed 0 (Nat.succ_pos _), fun j lt => ?_⟩
    rw [Nat.add_assoc, Nat.add_comm 1]
    exact succeed (j + 1) (by omega)
  · rintro ⟨first, later⟩ j lt
    cases j with
    | zero => exact first
    | succ j =>
        rw [Nat.add_comm j, ← Nat.add_assoc]
        exact later j (by omega)

/-- The calls made are the first ones. -/
theorem untilFailure_starts (n : Nat) (calls : List α) : untilFailure fails n calls <+: calls := by
  induction calls generalizing n with
  | nil => exact List.prefix_rfl
  | cons call rest ih =>
      rw [untilFailure, List.prefix_cons_inj]
      split
      · exact List.nil_prefix
      · exact ih (n + 1)

/-- All calls are made when none of them fails. -/
theorem untilFailure_of_allSucceed (succeed : AllSucceed fails n calls.length)
    : untilFailure fails n calls = calls := by
  induction calls generalizing n with
  | nil => rfl
  | cons call rest ih =>
      obtain ⟨first, later⟩ := allSucceed_succ.mp succeed
      rw [untilFailure, first, if_neg Bool.false_ne_true, ih later]

/-- All calls are made exactly when none but the last fails. -/
theorem untilFailure_eq_iff
    : untilFailure fails n calls = calls ↔ AllSucceed fails n (calls.length - 1) := by
  induction calls generalizing n with
  | nil => exact iff_of_true rfl fun j lt => absurd lt (Nat.not_lt_zero j)
  | cons call rest ih =>
      rw [untilFailure, List.cons.injEq, and_iff_right rfl, List.length_cons, Nat.add_sub_cancel]
      cases rest with
      | nil =>
          refine iff_of_true ?_ fun j lt => absurd lt (Nat.not_lt_zero j)
          split <;> rfl
      | cons next rest =>
          rw [List.length_cons, allSucceed_succ]
          cases fails n with
          | true => simp
          | false => simpa using ih

/-- Calls after calls of which none fails are made too; after others, none is. -/
theorem untilFailure_append
    : (AllSucceed fails n calls.length
        → untilFailure fails n (calls ++ more)
          = calls ++ untilFailure fails (n + calls.length) more)
      ∧ (¬ AllSucceed fails n calls.length
        → untilFailure fails n (calls ++ more) = untilFailure fails n calls) := by
  induction calls generalizing n with
  | nil =>
      refine ⟨fun _ => rfl, fun failing => ?_⟩
      exact absurd (fun j lt => absurd lt (Nat.not_lt_zero j)) failing
  | cons call rest ih =>
      rw [List.length_cons, allSucceed_succ, List.cons_append, untilFailure, untilFailure]
      cases fails n with
      | true => simp
      | false =>
          have next : n + (rest.length + 1) = n + 1 + rest.length := by omega
          simpa [next] using @ih (n + 1)

end

-----------------------------------------------------------------------------------------
-- A round of the register thread
-----------------------------------------------------------------------------------------

/-- A call of `sendto` for a Map-Register. -/
structure Sent where
  eid : Eid
  pfx : Prefix
  mapsrvaddr : SockaddrStorage
  message : List Byte

/-- What the call is for. -/
def Sent.target (sent : Sent) : Eid × Prefix × SockaddrStorage :=
  (sent.eid, sent.pfx, sent.mapsrvaddr)

/-- What a round depends on, by the number of the call in the round. -/
structure Surroundings where
  hmacSha1 : List Byte → List Byte → Bytes shaDigestLength
  /-- What `set_nonce` draws. -/
  setNonce : Nat → Bytes 8
  /-- `buf` of `send_map_register` when it is called. -/
  buf : Nat → Bytes lispMsgBufLen
  /-- Whether `sendto` returns -1. -/
  sendtoFails : Nat → Bool

/-- A round so far. -/
structure Round where
  drawn : Nat
  registered : Nat
  sent : List Sent

/-- What the calls so far were for. -/
def Round.targets (round : Round) : List (Eid × Prefix × SockaddrStorage) :=
  round.sent.map Sent.target

section

variable (env : Surroundings) (locTuple : ListT Locator) (mapsrvTuple : ListT SockaddrStorage)

/-- The loop over the map servers, and whether it comes to its end. -/
def sendToMapsrvs (eid : Eid) (pfx : Prefix) (message : List Byte)
    : List SockaddrStorage → Round → Bool × Round
  | [], round => (true, round)
  | mapsrvaddr :: rest, round =>
      let fails := env.sendtoFails round.sent.length
      let round := { round with sent := round.sent ++ [{ eid, pfx, mapsrvaddr, message }] }
      if fails then (false, round) else sendToMapsrvs eid pfx message rest round

/-- The loop over the prefixes of an EID -/
def sendMapRegisters (eid : Eid) : List Byte → List Prefix → Round → Except Fault (Int × Round)
  | _, [], round => .ok (0, round)
  | buf, pfx :: rest, round => do
      let nonce := env.setNonce round.drawn
      let encoded ← setLispMapRegister env.hmacSha1 buf locTuple pfx eid.authkey.toList nonce
      let round := { round with drawn := round.drawn + 1 }
      match encoded with
      | none => return (-1, round)
      | some (buf, len) =>
          match sendToMapsrvs env eid pfx (buf.take len) mapsrvTuple.nodes round with
          | (true, round) => sendMapRegisters eid buf rest round
          | (false, round) => return (-1, round)

/-- `send_map_register` -/
def sendMapRegister (eid : Eid) (round : Round) : Except Fault (Int × Round) :=
  sendMapRegisters env locTuple mapsrvTuple eid (env.buf round.registered).toList
    eid.prefixTuple.nodes { round with registered := round.registered + 1 }

/-- The loop over the EIDs -/
def registerEids : List Eid → Round → Except Fault Round
  | [], round => .ok round
  | eid :: rest, round =>
      if mapsrvTuple.count > 0 then do
        let (_, round) ← sendMapRegister env locTuple mapsrvTuple eid round
        registerEids rest round
      else
        registerEids rest round

/-- One round of the loop in `lisp_map_register_thread` -/
def lispMapRegisterThread (eidTuple : ListT Eid) : Except Fault Round :=
  registerEids env locTuple mapsrvTuple eidTuple.nodes { drawn := 0, registered := 0, sent := [] }

end

/-- Each of the prefixes with each map server. -/
def targetsOf (mapsrvs : List SockaddrStorage) (eid : Eid) (pfxs : List Prefix)
    : List (Eid × Prefix × SockaddrStorage) :=
  pfxs.flatMap fun pfx => mapsrvs.map fun mapsrvaddr => (eid, pfx, mapsrvaddr)

theorem targetsOf_cons (mapsrvs : List SockaddrStorage) (eid : Eid) (pfx : Prefix)
    (rest : List Prefix)
    : targetsOf mapsrvs eid (pfx :: rest)
      = mapsrvs.map (fun mapsrvaddr => (eid, pfx, mapsrvaddr)) ++ targetsOf mapsrvs eid rest := rfl

/-- The registrations of an EID. -/
def eidTargets (mapsrvs : List SockaddrStorage) (eid : Eid)
    : List (Eid × Prefix × SockaddrStorage) :=
  targetsOf mapsrvs eid eid.prefixTuple.nodes

/-- The round sends a Map-Register for each pair of an EID prefix and a map server, once. -/
def RegistersAll (env : Surroundings) (eids : List Eid) (mapsrvs : List SockaddrStorage)
    (locs : List Locator) : Prop :=
  ∃ round, lispMapRegisterThread env (listOf locs) (listOf mapsrvs) (listOf eids) = .ok round
    ∧ round.targets.Perm (eids.flatMap (eidTargets mapsrvs))

/-- A Map-Register for the prefix is built: the locators are of known families and fit in the
buffer, and the key ends in its field.
-/
def Registrable (locs : List Locator) (eid : Eid) (pfx : Prefix) : Prop :=
  (∀ loc ∈ locs, loc.Known) ∧ registerRoom locs pfx ≤ lispMsgBufLen ∧ 0 ∈ eid.authkey.toList

/-- Of the calls for each EID, numbered through from `n` on, none but the last fails. -/
def OnlyLastFails (fails : Nat → Bool) (mapsrvs : List SockaddrStorage) : Nat → List Eid → Prop
  | _, [] => True
  | n, eid :: rest =>
      AllSucceed fails n ((eidTargets mapsrvs eid).length - 1)
        ∧ OnlyLastFails fails mapsrvs (n + (eidTargets mapsrvs eid).length) rest

section

variable {env : Surroundings} {eid : Eid} {pfx : Prefix} {mapsrvs : List SockaddrStorage}
  {locs : List Locator} {round round' : Round} {buf : List Byte}

@[simp]
theorem Round.targets_length (round : Round) : round.targets.length = round.sent.length :=
  List.length_map _

/-- The map servers are tried up to the first failure; by induction on them. -/
theorem sendToMapsrvs_targets (message : List Byte)
    {targets : List (Eid × Prefix × SockaddrStorage)} (start : round.targets = targets)
    : (sendToMapsrvs env eid pfx message mapsrvs round).2.targets
        = targets ++ untilFailure env.sendtoFails targets.length
            (mapsrvs.map fun mapsrvaddr => (eid, pfx, mapsrvaddr))
      ∧ ((sendToMapsrvs env eid pfx message mapsrvs round).1 = true
        ↔ AllSucceed env.sendtoFails targets.length mapsrvs.length) := by
  induction mapsrvs generalizing round targets with
  | nil =>
      refine ⟨by rw [List.map_nil, untilFailure, List.append_nil]; exact start, ?_⟩
      exact iff_of_true rfl fun j lt => absurd lt (Nat.not_lt_zero j)
  | cons mapsrvaddr rest ih =>
      have next : ({ round with sent := round.sent ++ [{ eid, pfx, mapsrvaddr, message }] }
          : Round).targets = targets ++ [(eid, pfx, mapsrvaddr)] := by
        rw [← start]
        exact List.map_append
      obtain ⟨tried, ended⟩ := ih next
      rw [List.length_append, List.length_singleton] at tried ended
      have number : round.sent.length = targets.length := by rw [← start, Round.targets_length]
      rw [List.map_cons, untilFailure, List.length_cons, allSucceed_succ, sendToMapsrvs, number]
      cases env.sendtoFails targets.length with
      | true => simp [next]
      | false => simp [tried, ended]

/-- What is registrable is built, and nothing else. -/
theorem setLispMapRegister_registrable (sized : buf.length = lispMsgBufLen) (nonce : Bytes 8)
    : (Registrable locs eid pfx
        → ∃ out len, setLispMapRegister env.hmacSha1 buf (listOf locs) pfx eid.authkey.toList nonce
            = .ok (some (out, len)) ∧ out.length = lispMsgBufLen)
      ∧ ∀ result, setLispMapRegister env.hmacSha1 buf (listOf locs) pfx eid.authkey.toList nonce
            = .ok (some result)
          → Registrable locs eid pfx ∧ result.1.length = lispMsgBufLen := by
  have builds (ends : 0 ∈ eid.authkey.toList) :=
    @setLispMapRegister_builds buf (listOf locs) pfx nonce eid.authkey.toList env.hmacSha1 ends
  rw [listOf_nodes, sized] at builds
  constructor
  · rintro ⟨known, fits, ends⟩
    obtain ⟨out, built, same, _⟩ := (builds ends).returns fits known
    exact ⟨out, _, built, same⟩
  · intro result built
    have ends : 0 ∈ eid.authkey.toList := by
      obtain ⟨_, _, rest⟩ := bind_eq_ok.mp built
      obtain ⟨_, _, rest⟩ := bind_eq_ok.mp rest
      obtain ⟨_, _, rest⟩ := bind_eq_ok.mp rest
      obtain ⟨located, _, rest⟩ := bind_eq_ok.mp rest
      cases located with
      | none => cases rest
      | some located =>
          obtain ⟨_, read, _⟩ := bind_eq_ok.mp rest
          by_contra endless
          rw [rdString, List.drop_zero, if_neg endless] at read
          cases read
    have fits : registerRoom locs pfx ≤ lispMsgBufLen := by
      by_contra past
      obtain ⟨_, overrun⟩ := (builds ends).overruns (Nat.not_le.mp past)
      cases built.symm.trans overrun
    have known : ∀ loc ∈ locs, loc.Known := (builds ends).complete_of_returned fits built
    obtain ⟨out, built', same, _⟩ := (builds ends).returns fits known
    obtain rfl := Option.some.inj (Except.ok.inj (built.symm.trans built'))
    exact ⟨⟨known, fits, ends⟩, same⟩

/-- The calls for registrable prefixes go on up to the first failure; by induction on them. -/
theorem sendMapRegisters_of_registrable {pfxs : List Prefix}
    (registrable : ∀ pfx ∈ pfxs, Registrable locs eid pfx) (sized : buf.length = lispMsgBufLen)
    : ∃ result after,
        sendMapRegisters env (listOf locs) (listOf mapsrvs) eid buf pfxs round = .ok (result, after)
          ∧ after.targets = round.targets
            ++ untilFailure env.sendtoFails round.targets.length (targetsOf mapsrvs eid pfxs) := by
  induction pfxs generalizing buf round with
  | nil => exact ⟨0, round, rfl, (List.append_nil _).symm⟩
  | cons pfx rest ih =>
      obtain ⟨out, len, built, sized'⟩ := (setLispMapRegister_registrable sized _).1
        (registrable pfx List.mem_cons_self)
      have tried := @sendToMapsrvs_targets env eid pfx mapsrvs
        { round with drawn := round.drawn + 1 } (out.take len) round.targets rfl
      rw [sendMapRegisters, built]
      simp only [bind, Except.bind, listOf_nodes]
      rw [targetsOf_cons]
      have size : (mapsrvs.map fun mapsrvaddr => (eid, pfx, mapsrvaddr)).length = mapsrvs.length :=
        List.length_map _
      obtain ⟨goesOn, stops⟩ := @untilFailure_append _ env.sendtoFails round.targets.length
        (mapsrvs.map fun mapsrvaddr => (eid, pfx, mapsrvaddr)) (targetsOf mapsrvs eid rest)
      rw [size] at goesOn stops
      generalize sendToMapsrvs env eid pfx (out.take len) mapsrvs
        { round with drawn := round.drawn + 1 } = sent at tried ⊢
      obtain ⟨ended, after⟩ := sent
      obtain ⟨targets, all⟩ := tried
      cases ended with
      | false =>
          have failing : ¬ AllSucceed env.sendtoFails round.targets.length mapsrvs.length :=
            fun succeed => Bool.false_ne_true (all.mpr succeed)
          exact ⟨-1, after, rfl, by rw [stops failing]; exact targets⟩
      | true =>
          have succeed : AllSucceed env.sendtoFails round.targets.length mapsrvs.length :=
            all.mp rfl
          obtain ⟨result, last, done, targets'⟩ := @ih after out
            (fun other mem => registrable other (List.mem_cons_of_mem _ mem)) sized'
          refine ⟨result, last, done, ?_⟩
          have here : after.targets
              = round.targets ++ mapsrvs.map fun mapsrvaddr => (eid, pfx, mapsrvaddr) := by
            rw [untilFailure_of_allSucceed (by rwa [size])] at targets
            exact targets
          rw [targets', goesOn succeed, here, List.length_append, size, List.append_assoc]

/-- Whatever returns has made calls for the first pairs; for all of them only where every
prefix is registrable.
-/
theorem sendMapRegisters_tried {pfxs : List Prefix} {result : Int}
    (sized : buf.length = lispMsgBufLen)
    (done : sendMapRegisters env (listOf locs) (listOf mapsrvs) eid buf pfxs round
      = .ok (result, round'))
    : ∃ tried, round'.targets = round.targets ++ tried ∧ tried <+: targetsOf mapsrvs eid pfxs
        ∧ (mapsrvs ≠ [] → tried = targetsOf mapsrvs eid pfxs
          → ∀ pfx ∈ pfxs, Registrable locs eid pfx) := by
  induction pfxs generalizing buf round with
  | nil =>
      obtain ⟨_, rfl⟩ := Prod.mk.inj (Except.ok.inj done)
      exact ⟨[], (List.append_nil _).symm, List.prefix_rfl, fun _ _ _ mem => by cases mem⟩
  | cons pfx rest ih =>
      obtain ⟨encoded, built, done⟩ := bind_eq_ok.mp done
      rw [targetsOf_cons]
      cases encoded with
      | none =>
          obtain ⟨_, rfl⟩ := Prod.mk.inj (pure_eq_ok.mp done)
          refine ⟨[], (List.append_nil _).symm, List.nil_prefix, fun some all => ?_⟩
          have none := (List.append_eq_nil_iff.mp all.symm).1
          exact absurd (List.map_eq_nil_iff.mp none) some
      | some encoded =>
          obtain ⟨here, sized'⟩ := (setLispMapRegister_registrable sized _).2 encoded built
          have tried := @sendToMapsrvs_targets env eid pfx mapsrvs
            { round with drawn := round.drawn + 1 } (encoded.1.take encoded.2) round.targets rfl
          simp only [listOf_nodes] at done
          generalize sendToMapsrvs env eid pfx (encoded.1.take encoded.2) mapsrvs
            { round with drawn := round.drawn + 1 } = sent at tried done
          obtain ⟨ended, after⟩ := sent
          obtain ⟨targets, all⟩ := tried
          cases ended with
          | false =>
              obtain ⟨_, rfl⟩ := Prod.mk.inj (pure_eq_ok.mp done)
              have first := @untilFailure_starts _ env.sendtoFails round.targets.length
                (mapsrvs.map fun mapsrvaddr => (eid, pfx, mapsrvaddr))
              refine ⟨_, targets, first.trans (List.prefix_append _ _), fun some whole => ?_⟩
              -- all was tried, so this was the last prefix
              have short := first.length_le
              rw [whole, List.length_append] at short
              have none : targetsOf mapsrvs eid rest = [] :=
                List.length_eq_zero_iff.mp (by omega)
              intro other mem
              rcases List.mem_cons.mp mem with rfl | later
              · exact here
              · have nothing := List.flatMap_eq_nil_iff.mp none other later
                exact absurd (List.map_eq_nil_iff.mp nothing) some
          | true =>
              obtain ⟨tried, targets', first, registrable⟩ := ih sized' done
              have begun : after.targets
                  = round.targets ++ mapsrvs.map fun mapsrvaddr => (eid, pfx, mapsrvaddr) := by
                rw [untilFailure_of_allSucceed (by rw [List.length_map]; exact all.mp rfl)]
                  at targets
                exact targets
              refine ⟨mapsrvs.map (fun mapsrvaddr => (eid, pfx, mapsrvaddr)) ++ tried, ?_,
                (List.prefix_append_right_inj _).mpr first, fun some whole => ?_⟩
              · rw [targets', begun, List.append_assoc]
              · rw [List.forall_mem_cons]
                exact ⟨here, registrable some (List.append_cancel_left whole)⟩

/-- `send_map_register` reaches all the pairs of an EID exactly when all its prefixes are
registrable and none of the calls but the last fails.
-/
theorem sendMapRegister_reaches_iff (some : mapsrvs ≠ [])
    : (∃ result after,
          sendMapRegister env (listOf locs) (listOf mapsrvs) eid round = .ok (result, after)
            ∧ after.targets = round.targets ++ eidTargets mapsrvs eid)
      ↔ (∀ pfx ∈ eid.prefixTuple.nodes, Registrable locs eid pfx)
        ∧ AllSucceed env.sendtoFails round.targets.length
          ((eidTargets mapsrvs eid).length - 1) := by
  have sized : (env.buf round.registered).toList.length = lispMsgBufLen :=
    List.Vector.toList_length _
  rw [← untilFailure_eq_iff]
  constructor
  · rintro ⟨result, after, done, whole⟩
    obtain ⟨tried, targets, _, registrable⟩ := sendMapRegisters_tried sized done
    have all : tried = eidTargets mapsrvs eid := List.append_cancel_left (targets.symm.trans whole)
    have here := registrable some all
    obtain ⟨_, after', done', targets'⟩ := @sendMapRegisters_of_registrable env eid mapsrvs locs
      { round with registered := round.registered + 1 } _ _ here sized
    obtain ⟨_, rfl⟩ := Prod.mk.inj (Except.ok.inj (done.symm.trans done'))
    exact ⟨here, List.append_cancel_left (targets'.symm.trans whole)⟩
  · rintro ⟨registrable, reached⟩
    obtain ⟨result, after, done, targets⟩ := @sendMapRegisters_of_registrable env eid mapsrvs locs
      { round with registered := round.registered + 1 } _ _ registrable sized
    exact ⟨result, after, done, targets.trans (congrArg (round.targets ++ ·) reached)⟩

/-- A round makes calls for some of the pairs, in order. -/
theorem registerEids_tried {eids : List Eid}
    (done : registerEids env (listOf locs) (listOf mapsrvs) eids round = .ok round')
    : ∃ tried, round'.targets = round.targets ++ tried
        ∧ tried.Sublist (eids.flatMap (eidTargets mapsrvs)) := by
  induction eids generalizing round with
  | nil =>
      obtain rfl := Except.ok.inj done
      exact ⟨[], (List.append_nil _).symm, List.nil_sublist _⟩
  | cons eid rest ih =>
      rw [registerEids] at done
      rw [List.flatMap_cons]
      split at done
      · obtain ⟨⟨result, after⟩, registered, done⟩ := bind_eq_ok.mp done
        obtain ⟨first, targets, within, _⟩ :=
          sendMapRegisters_tried (List.Vector.toList_length _) registered
        obtain ⟨later, targets', below⟩ := ih done
        refine ⟨first ++ later, ?_, within.sublist.append below⟩
        rw [targets', targets, List.append_assoc]
        rfl
      · obtain ⟨later, targets, below⟩ := ih done
        exact ⟨later, targets, below.trans (List.sublist_append_right _ _)⟩

/-- With a map server, the loop over the EIDs reaches all pairs exactly when each EID's calls
do; by induction on the EIDs.
-/
theorem registerEids_reaches_iff {eids : List Eid} (some : mapsrvs ≠ [])
    (counted : (listOf mapsrvs).count > 0)
    : (∃ after, registerEids env (listOf locs) (listOf mapsrvs) eids round = .ok after
          ∧ after.targets = round.targets ++ eids.flatMap (eidTargets mapsrvs))
      ↔ (∀ eid ∈ eids, ∀ pfx ∈ eid.prefixTuple.nodes, Registrable locs eid pfx)
        ∧ OnlyLastFails env.sendtoFails mapsrvs round.targets.length eids := by
  induction eids generalizing round with
  | nil =>
      refine iff_of_true ⟨round, rfl, (List.append_nil _).symm⟩ ⟨fun _ mem => ?_, trivial⟩
      cases mem
  | cons eid rest ih =>
      rw [List.forall_mem_cons, OnlyLastFails, and_and_and_comm,
        ← sendMapRegister_reaches_iff some, List.flatMap_cons, registerEids, if_pos counted]
      constructor
      · rintro ⟨last, done, whole⟩
        obtain ⟨⟨result, after⟩, registered, done⟩ := bind_eq_ok.mp done
        obtain ⟨first, targets, within, _⟩ :=
          sendMapRegisters_tried (List.Vector.toList_length _) registered
        obtain ⟨later, targets', below⟩ := registerEids_tried done
        have split : first ++ later
            = eidTargets mapsrvs eid ++ rest.flatMap (eidTargets mapsrvs) := by
          rw [targets', targets, List.append_assoc] at whole
          exact List.append_cancel_left whole
        -- neither part can make up for the other
        have lengths := congrArg List.length split
        rw [List.length_append, List.length_append] at lengths
        have first_le := within.length_le
        have later_le := below.length_le
        have firstAll : first = eidTargets mapsrvs eid :=
          within.sublist.eq_of_length (Nat.le_antisymm first_le (by
            change (eidTargets mapsrvs eid).length ≤ _
            omega))
        have laterAll : later = rest.flatMap (eidTargets mapsrvs) := by
          rw [firstAll] at split
          exact List.append_cancel_left split
        rw [firstAll] at targets
        refine ⟨⟨result, after, registered, targets⟩, ?_⟩
        have length : after.targets.length
            = round.targets.length + (eidTargets mapsrvs eid).length := by
          rw [targets, List.length_append]
          rfl
        rw [← length]
        exact ih.mp ⟨last, done, by rw [targets', laterAll]⟩
      · rintro ⟨⟨result, after, registered, targets⟩, later⟩
        rw [← List.length_append, ← targets] at later
        obtain ⟨last, done, targets'⟩ := ih.mpr later
        refine ⟨last, bind_eq_ok.mpr ⟨_, registered, done⟩, ?_⟩
        rw [targets', targets, List.append_assoc]

/-- The counter is positive unless its 32 bits have run over. -/
theorem mapsrvs_counted : (listOf mapsrvs).count > 0 ↔ mapsrvs.length % 2 ^ 32 ≠ 0 := by
  rw [listOf_count, gt_iff_lt, BitVec.lt_def, BitVec.toNat_ofNat]
  exact Nat.pos_iff_ne_zero

/-- Without a map server that is counted, nothing is sent. -/
theorem registerEids_uncounted (uncounted : ¬ (listOf mapsrvs).count > 0) (eids : List Eid)
    : registerEids env (listOf locs) (listOf mapsrvs) eids round = .ok round := by
  induction eids with
  | nil => rfl
  | cons eid rest ih => rw [registerEids, if_neg uncounted, ih]

/-- Where there is nothing to send, nothing stands against it. -/
theorem onlyLastFails_nothing {eids : List Eid} {fails : Nat → Bool} (n : Nat)
    (nothing : eids.flatMap (eidTargets mapsrvs) = [])
    : OnlyLastFails fails mapsrvs n eids := by
  induction eids generalizing n with
  | nil => trivial
  | cons eid rest ih =>
      obtain ⟨here, later⟩ := List.append_eq_nil_iff.mp nothing
      refine ⟨?_, ih _ later⟩
      rw [here]
      exact fun j lt => absurd lt (Nat.not_lt_zero j)

/-- A round registers everything exactly when there is nothing to register, or the map servers
are counted, all prefixes are registrable and for no EID a call but its last fails.
-/
theorem registersAll_iff (env : Surroundings) (eids : List Eid) (mapsrvs : List SockaddrStorage)
    (locs : List Locator)
    : RegistersAll env eids mapsrvs locs
      ↔ eids.flatMap (eidTargets mapsrvs) = []
        ∨ mapsrvs.length % 2 ^ 32 ≠ 0
          ∧ (∀ eid ∈ eids, ∀ pfx ∈ eid.prefixTuple.nodes, Registrable locs eid pfx)
          ∧ OnlyLastFails env.sendtoFails mapsrvs 0 eids := by
  rw [← mapsrvs_counted]
  by_cases counted : (listOf mapsrvs).count > 0
  · have some : mapsrvs ≠ [] := by
      rintro rfl
      exact mapsrvs_counted.mp counted rfl
    have reaches := @registerEids_reaches_iff env mapsrvs locs
      { drawn := 0, registered := 0, sent := [] } eids some counted
    rw [and_iff_right counted]
    constructor
    · rintro ⟨round, done, perm⟩
      rw [lispMapRegisterThread, listOf_nodes] at done
      obtain ⟨tried, targets, below⟩ := registerEids_tried done
      have targets' : round.targets = tried := targets
      rw [targets'] at perm
      have all := below.eq_of_length perm.length_eq
      exact .inr (reaches.mp ⟨round, done, by rw [targets, all]⟩)
    · intro reached
      have registered : (∀ eid ∈ eids, ∀ pfx ∈ eid.prefixTuple.nodes, Registrable locs eid pfx)
          ∧ OnlyLastFails env.sendtoFails mapsrvs 0 eids := by
        rcases reached with nothing | registered
        · refine ⟨fun eid mem pfx there => ?_, onlyLastFails_nothing 0 nothing⟩
          have here := List.flatMap_eq_nil_iff.mp nothing eid mem
          have none := List.flatMap_eq_nil_iff.mp here pfx there
          exact absurd (List.map_eq_nil_iff.mp none) some
        · exact registered
      obtain ⟨round, done, targets⟩ := reaches.mpr registered
      rw [← @listOf_nodes _ eids] at done
      exact ⟨round, done, .of_eq targets⟩
  · have idle := @registerEids_uncounted env mapsrvs locs
      { drawn := 0, registered := 0, sent := [] } counted eids
    rw [RegistersAll, lispMapRegisterThread, listOf_nodes, idle]
    constructor
    · rintro ⟨round, done, perm⟩
      obtain rfl := Except.ok.inj done
      exact .inl perm.nil_eq.symm
    · rintro (nothing | ⟨again, _⟩)
      · exact ⟨_, rfl, .of_eq nothing.symm⟩
      · exact absurd again counted

end

/-- The EID `a` with the prefix 10.0.0.0/8. -/
def testEid : Eid := { createEidInstance (ascii "a") with prefixTuple := listOf [testPrefix] }

/-- Surroundings in which the first `sendto` fails. -/
def testSurroundings : Surroundings where
  hmacSha1 := firstBytes
  setNonce := fun _ => zeros 8
  buf := fun _ => zeros lispMsgBufLen
  sendtoFails := (· == 0)

/-- The second of two map servers is never tried when the first fails. -/
theorem secondMapsrv_silenced
    : ¬ ∀ (env : Surroundings) (eids : List Eid) (mapsrvs : List SockaddrStorage)
        (locs : List Locator),
        (∀ eid ∈ eids, ∀ pfx ∈ eid.prefixTuple.nodes, Registrable locs eid pfx)
        → RegistersAll env eids mapsrvs locs := by
  intro registersAll
  have registrable : ∀ eid ∈ [testEid], ∀ pfx ∈ eid.prefixTuple.nodes,
      Registrable [testLocator] eid pfx := by
    intro eid mem pfx there
    obtain rfl := List.mem_singleton.mp mem
    obtain rfl : pfx = testPrefix := by simpa [testEid] using there
    exact ⟨by decide, by decide, by decide⟩
  obtain ⟨round, done, perm⟩ := registersAll testSurroundings [testEid]
    [testLocator.locAddr, testLocator.locAddr] [testLocator] registrable
  have once : (lispMapRegisterThread testSurroundings (listOf [testLocator])
      (listOf [testLocator.locAddr, testLocator.locAddr]) (listOf [testEid])).map (·.sent.length)
      = .ok 1 := by
    decide +kernel
  rw [done] at once
  have one : round.sent.length = 1 := Except.ok.inj once
  have length := perm.length_eq
  rw [Round.targets_length, one] at length
  cases length

end Lixy.Control
