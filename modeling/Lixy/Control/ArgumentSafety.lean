import Lixy.Control.CommandLines
import Lixy.Control.CommandEffects

/-! Which command lines pass NULL to a string function, or copy a word over the end of an
address buffer.
-/

namespace Lixy.Control

open ByteStrings
open EventRuns (run)

-----------------------------------------------------------------------------------------
-- Splitting ends inside the buffer
-----------------------------------------------------------------------------------------

/-- A loop that stops at NULs ends at one or before, by induction on the bytes. -/
theorem advance_total (goesOn : Byte → Bool) {mem : List Byte} {nul : Nat}
    (there : mem[nul]? = some 0) (stops : goesOn 0 = false)
    : ∃ n, advance goesOn mem = .ok n ∧ n ≤ nul := by
  induction mem generalizing nul with
  | nil => simp at there
  | cons c rest ih =>
      by_cases goes : goesOn c = true
      · cases nul with
        | zero =>
            obtain rfl : c = 0 := by simpa using there
            rw [stops] at goes
            cases goes
        | succ nul =>
            obtain ⟨n, done, le⟩ := ih (by simpa using there)
            refine ⟨n + 1, ?_, by omega⟩
            simp only [advance, goes, if_true, done, bind, Except.bind, pure, Except.pure]
      · exact ⟨0, by rw [advance, if_neg goes], by omega⟩

/-- NULs written into a region leave a NUL where one was. -/
theorem wr_nuls {buf : List Byte} {off blanks nul : Nat} (there : buf[nul]? = some 0)
    (fits : off + blanks ≤ nul)
    : ∃ out, wr buf off (List.replicate blanks 0) = .ok out ∧ out[nul]? = some 0 := by
  have inside : nul < buf.length := (List.getElem?_eq_some_iff.mp there).1
  obtain ⟨out, written⟩ : ∃ out, overwrite buf off (List.replicate blanks 0) = some out :=
    Option.isSome_iff_exists.mp (overwrite_isSome_iff.mpr (by rw [List.length_replicate]; omega))
  refine ⟨out, by rw [wr, written], ?_⟩
  rw [overwrite_getElem?_of_outside written (.inr (by rw [List.length_replicate]; omega)), there]

theorem rd_before {buf : List Byte} {c nul : Nat} (there : buf[nul]? = some 0) (before : c ≤ nul)
    : ∃ b, rd buf c = .ok b := by
  have inside : nul < buf.length := (List.getElem?_eq_some_iff.mp there).1
  rw [rd, List.getElem?_eq_getElem (Nat.lt_of_le_of_lt before inside)]
  exact ⟨_, rfl⟩

/-- The loop of `strsplit` ends before a NUL, and so does every word, by induction on the room
for words.
-/
theorem splitWords_total {room : Nat} {buf : List Byte} {c nul : Nat}
    (there : buf[nul]? = some 0) (before : c ≤ nul)
    : ∃ out argv, splitWords buf c room = .ok (out, argv) ∧ out[nul]? = some 0
        ∧ ∀ start ∈ argv, start ≤ nul := by
  obtain ⟨b, read⟩ := rd_before there before
  induction room generalizing buf c b with
  | zero => exact ⟨buf, [], by rw [splitWords, read]; rfl, there, nofun⟩
  | succ room ih =>
      by_cases ends : b = 0
      · refine ⟨buf, [], ?_, there, nofun⟩
        rw [splitWords, read]
        simp only [bind, Except.bind, ends, if_true, pure, Except.pure]
      · have ahead {off : Nat} (le : off ≤ nul) : (buf.drop off)[nul - off]? = some 0 := by
          rw [List.getElem?_drop, Nat.add_sub_cancel' le, there]
        obtain ⟨word, overWord, word_le⟩ :=
          advance_total (fun b => b ≠ 0 && isWord b) (ahead before) (by decide)
        have before' : c + word ≤ nul := by omega
        obtain ⟨blanks, overBlanks, blanks_le⟩ :=
          advance_total (fun b => b ≠ 0 && !isWord b) (ahead before') (by decide)
        have before'' : c + word + blanks ≤ nul := by omega
        obtain ⟨cut, written, there'⟩ := wr_nuls there before''
        obtain ⟨b', read'⟩ := rd_before there' before''
        obtain ⟨out, argv, split, last, starts⟩ := ih there' before'' b' read'
        refine ⟨out, c :: argv, ?_, last, ?_⟩
        · rw [splitWords, read]
          simp only [bind, Except.bind, if_neg ends, overWord, overBlanks, written, split, pure,
            Except.pure]
        · intro start mem
          rcases List.mem_cons.mp mem with rfl | mem
          · exact before
          · exact starts start mem

/-- Strings that start before a NUL end. -/
theorem rdStrings_total {buf : List Byte} {nul : Nat} (there : buf[nul]? = some 0)
    {argv : List Nat} (starts : ∀ start ∈ argv, start ≤ nul)
    : ∃ words, argv.mapM (rdString buf) = .ok words := by
  induction argv with
  | nil => exact ⟨[], rfl⟩
  | cons start rest ih =>
      obtain ⟨words, strings⟩ := ih (fun start mem => starts start (by simp [mem]))
      have le := starts start (by simp)
      have ends : 0 ∈ buf.drop start := by
        refine List.mem_of_getElem? (i := nul - start) ?_
        rw [List.getElem?_drop, Nat.add_sub_cancel' le, there]
      refine ⟨(buf.drop start).takeWhile (· ≠ 0) :: words, ?_⟩
      rw [List.mapM_cons, rdString, if_pos ends, strings]
      rfl

/-- A message that leaves room in the buffer is split without a fault. -/
theorem splitMessage_total {msg : List Byte} (short : msg.length < controlMsgBufLen)
    : ∃ split, splitMessage msg = .ok split := by
  have nul : (readBuf msg)[msg.length]? = some 0 := by
    rw [readBuf_eq short, List.getElem?_append_right (Nat.le_refl _), Nat.sub_self,
      List.getElem?_cons_zero]
  obtain ⟨c, skipped, le⟩ := advance_total (· == 0x20) nul (by decide)
  obtain ⟨buf, argv, split, last, starts⟩ := @splitWords_total controlArgsMax _ _ _ nul le
  by_cases many : argv.length ≥ controlArgsMax
  · refine ⟨none, ?_⟩
    simp only [splitMessage, strsplit, skipped, split, bind, Except.bind, if_pos many, pure,
      Except.pure]
  · obtain ⟨words, strings⟩ := rdStrings_total last starts
    refine ⟨some words, ?_⟩
    simp only [splitMessage, strsplit, skipped, split, bind, Except.bind, if_neg many, pure,
      Except.pure, strings]

-----------------------------------------------------------------------------------------
-- Surviving
-----------------------------------------------------------------------------------------

/-- A computation that passes no NULL to a string function and stays inside its address
buffers.
-/
def Survives {α : Type} (x : Except CommandFault α) : Prop :=
  x ≠ .error .absentArgument ∧ x ≠ .error (.overflow addrbuflen)

section

variable {α β : Type}

@[simp]
theorem survives_ok (a : α) : Survives (.ok a : Except CommandFault α) := ⟨nofun, nofun⟩

@[simp]
theorem survives_pure (a : α) : Survives (pure a : Except CommandFault α) := survives_ok a

@[simp]
theorem survives_call (x : Except Fault α) : Survives (call x) := by
  cases x with
  | ok a => exact survives_ok a
  | error fault => exact ⟨nofun, nofun⟩

@[simp]
theorem survives_answer (res : ReturnType) (st : Lixyd) : Survives (answer res st) :=
  survives_ok _

/-- A sequence survives when its start does, and then its continuation. -/
theorem survives_bind {x : Except CommandFault α} {f : α → Except CommandFault β}
    : Survives (x >>= f) ↔ Survives x ∧ ∀ a, x = .ok a → Survives (f a) := by
  cases x with
  | ok a => simp [bind, Except.bind]
  | error fault => simp [Survives, bind, Except.bind]

@[simp]
theorem survives_present {arg : Option (List Byte)} : Survives (present arg) ↔ arg ≠ none := by
  cases arg <;> simp [present, Survives]

@[simp]
theorem survives_strcmp {arg : Option (List Byte)} {literal : String}
    : Survives (strcmp arg literal) ↔ arg ≠ none := by
  rw [strcmp, survives_bind]
  simp

/-- A branch on a comparison of a given argument. -/
theorem survives_ite_strcmp {arg : Option (List Byte)} {literal : String} (given : arg ≠ none)
    {x y : Except CommandFault α}
    : Survives (strcmp arg literal >>= fun same => if same then x else y)
      ↔ (arg = some (ascii literal) → Survives x) ∧ (arg ≠ some (ascii literal) → Survives y) := by
  obtain ⟨word, rfl⟩ := Option.ne_none_iff_exists'.mp given
  by_cases same : word = ascii literal
  · simp [strcmp, present, bind, Except.bind, pure, Except.pure, same]
  · simp [strcmp, present, bind, Except.bind, pure, Except.pure, same]

/-- A branch on such a comparison, both sides of which survive. -/
theorem survives_choice {arg : Option (List Byte)} {literal : String} (given : arg ≠ none)
    {x y : Except CommandFault α} (same : Survives x) (other : Survives y)
    : Survives (strcmp arg literal >>= fun same => if same then x else y) :=
  (survives_ite_strcmp given).mpr ⟨fun _ => same, fun _ => other⟩

theorem survives_memcpy {n : Nat} {dst : Bytes n} {src : List Byte}
    : Survives (memcpy dst src) ↔ (n = addrbuflen → src.length ≤ n) := by
  unfold memcpy
  split
  · next fits => exact iff_of_true (survives_ok _) (fun _ => fits)
  · next tooLong =>
      simp only [Survives, ne_eq, Except.error.injEq, reduceCtorEq, not_false_eq_true, true_and,
        CommandFault.overflow.injEq]
      exact ⟨fun other same => absurd same other, fun fits same => tooLong (fits same)⟩

end

-----------------------------------------------------------------------------------------
-- The commands
-----------------------------------------------------------------------------------------

section

variable (lib : Library) (junk : Junk) {args : Args} (st : Lixyd)

theorem configMapServer_survives : Survives (configMapServer lib junk args st) := by
  have set : Survives (cmdSetMapServer lib junk args st) := by
    unfold cmdSetMapServer
    split
    · exact survives_answer _ _
    · split <;> exact survives_answer _ _
  have delete : Survives (cmdDeleteMapServer lib junk args st) := by
    unfold cmdDeleteMapServer
    split
    · exact survives_answer _ _
    · split <;> exact survives_answer _ _
  unfold configMapServer
  split
  · exact set
  · next given => exact survives_choice given delete (survives_answer _ _)

theorem locatorParam_survives {param : Option (List Byte)} (given : param ≠ none)
    : Survives (locatorParam param) := by
  unfold locatorParam
  refine survives_choice given (survives_ok _) ?_
  refine survives_choice given (survives_ok _) ?_
  refine survives_choice given (survives_ok _) ?_
  exact survives_choice given (survives_ok _) (survives_ok _)

theorem cmdSetLocatorParamater_survives : Survives (cmdSetLocatorParamater lib junk args st) := by
  unfold cmdSetLocatorParamater
  split
  · exact survives_answer _ _
  · next given =>
      rw [not_or, not_or] at given
      split
      · exact survives_answer _ _
      · split
        · exact survives_answer _ _
        · refine survives_bind.mpr ⟨locatorParam_survives given.2.1, fun param _ => ?_⟩
          split
          · exact survives_answer _ _
          · exact survives_bind.mpr ⟨survives_present.mpr given.2.2, fun _ _ => survives_answer _ _⟩

theorem configLocator_survives : Survives (configLocator lib junk args st) := by
  have create : Survives (cmdCreateLocator lib args st) := by
    unfold cmdCreateLocator
    split
    · exact survives_answer _ _
    · dsimp only
      split <;> exact survives_answer _ _
  have delete : Survives (cmdDeleteLocator lib junk args st) := by
    unfold cmdDeleteLocator
    split
    · exact survives_answer _ _
    · split <;> exact survives_answer _ _
  unfold configLocator
  split
  · exact survives_answer _ _
  · next given =>
      rw [not_or] at given
      refine survives_choice given.2 create ?_
      exact survives_choice given.2 delete (cmdSetLocatorParamater_survives _ _ _)

theorem configShow_survives : Survives (configShow junk args st) := by
  have state : Survives (showState junk (args 2)) := by
    unfold showState
    split
    · exact survives_ok _
    · next given =>
        refine survives_choice given (survives_ok _) ?_
        refine survives_choice given (survives_ok _) ?_
        refine survives_choice given (survives_ok _) ?_
        refine survives_choice given (survives_ok _) ?_
        exact survives_choice given (survives_ok _) (survives_ok _)
  have route (af : Nat) : Survives (cmdShowRoute junk args af st) := by
    unfold cmdShowRoute
    exact survives_bind.mpr ⟨state, fun _ _ =>
      survives_bind.mpr ⟨survives_call _, fun _ _ => survives_ok _⟩⟩
  have eid : Survives (cmdShowEid args st) := by
    unfold cmdShowEid
    split
    · split <;> exact survives_ok _
    · exact survives_ok _
  unfold configShow
  split
  · exact survives_ok _
  · next given =>
      refine survives_choice given (route afInet) ?_
      refine survives_choice given (route afInet6) ?_
      refine survives_choice given eid ?_
      refine survives_choice given (survives_ok _) ?_
      exact survives_choice given (survives_ok _) (survives_ok _)

theorem configRoute_survives : Survives (configRoute lib args st) := by
  have family (given : args 1 ≠ none) : Survives (routeFamily (args 1)) := by
    unfold routeFamily
    refine survives_choice given (survives_ok _) ?_
    exact survives_choice given (survives_ok _) (survives_ok _)
  unfold configRoute
  split
  · exact survives_answer _ _
  · next given =>
      rw [not_or, not_or] at given
      obtain ⟨some1, some2, some3⟩ := given
      refine survives_choice some3 ?_ ?_
      · unfold cmdUninstallRoute
        refine survives_bind.mpr ⟨family some1, fun af _ => ?_⟩
        split
        · exact survives_answer _ _
        · refine survives_bind.mpr ⟨survives_present.mpr some2, fun _ _ => ?_⟩
          refine survives_bind.mpr ⟨survives_call _, fun _ _ => ?_⟩
          split
          · exact survives_answer _ _
          · refine survives_bind.mpr ⟨survives_call _, fun _ _ => ?_⟩
            split <;> exact survives_answer _ _
      · unfold cmdInstallRoute
        refine survives_bind.mpr ⟨family some1, fun af _ => ?_⟩
        split
        · exact survives_answer _ _
        · split
          · exact survives_answer _ _
          · refine survives_bind.mpr ⟨survives_present.mpr some2, fun _ _ => ?_⟩
            refine survives_bind.mpr ⟨survives_call _, fun _ _ => ?_⟩
            split
            · exact survives_answer _ _
            · exact survives_bind.mpr ⟨survives_call _, fun _ _ => survives_answer _ _⟩

end

-----------------------------------------------------------------------------------------
-- The commands on EIDs
-----------------------------------------------------------------------------------------

/-- A name finds an EID. -/
def Finds (eidName : List Byte) (st : Lixyd) : Prop :=
  ∃ eid ∈ st.eidTuple.nodes, strncmp lispEidNameLen eidName eid.name.toList = true

theorem searchEid_eq_none {eidName : List Byte} {st : Lixyd}
    : searchEid eidName st = none ↔ ¬ Finds eidName st := by
  rw [searchEid, searchListnode_eq_none]
  simp [Finds]

/-- The words name an EID that there is, with an `authkey` but no key, or with a prefix that
is longer than an address buffer.
-/
def Crashes (args : Args) (st : Lixyd) : Prop :=
  ∃ eidName, args 1 = some eidName ∧ Finds eidName st
    ∧ (args 2 = some (ascii "authkey") ∧ args 3 = none
      ∨ args 2 = some (ascii "prefix") ∧ (args 4 = none ∨ args 4 = some (ascii "delete"))
        ∧ ∃ cPrefix, args 3 = some cPrefix ∧ addrbuflen ≤ cPrefix.length)

section

variable {lib : Library} {junk : Junk} {args : Args} {st : Lixyd} {eidName : List Byte}

theorem eidPrefix_survives_iff {cPrefix : List Byte}
    : Survives (eidPrefix lib junk cPrefix) ↔ cPrefix.length < addrbuflen := by
  unfold eidPrefix
  rw [survives_bind, survives_memcpy, List.length_append, List.length_singleton]
  constructor
  · rintro ⟨fits, _⟩
    exact fits rfl
  · intro fits
    refine ⟨fun _ => fits, fun addrbuf _ => survives_bind.mpr ⟨survives_call _, fun string _ => ?_⟩⟩
    split
    · exact survives_ok _
    · split
      · exact survives_ok _
      · exact survives_call _

/-- Setting a key survives unless it is absent for an EID that there is. -/
theorem cmdSetEidAuthenticationKey_survives_iff (named : args 1 = some eidName)
    : Survives (cmdSetEidAuthenticationKey args st) ↔ (Finds eidName st → args 3 ≠ none) := by
  unfold cmdSetEidAuthenticationKey
  rw [named, survives_bind]
  simp only [present, survives_ok, Except.ok.injEq, forall_eq', true_and]
  split
  · next missing => simp [searchEid_eq_none.mp missing]
  · next place eid found =>
      have there : Finds eidName st := by
        by_contra missing
        rw [searchEid_eq_none.mpr missing] at found
        cases found
      rw [survives_bind]
      simp only [there, true_imp_iff]
      refine ⟨fun h => survives_present.mp h.1, fun given => ⟨survives_present.mpr given, ?_⟩⟩
      intro key _
      split
      · exact survives_answer _ _
      · refine survives_bind.mpr ⟨survives_memcpy.mpr fun eq => absurd eq (by decide), ?_⟩
        exact fun _ _ => survives_answer _ _

/-- A command on an EID's prefix survives where the prefix fits, or there is no such EID. -/
theorem prefixCommand_survives_iff {cPrefix : List Byte}
    {next : Nat → Eid → Option Prefix → Except CommandFault (ReturnType × Lixyd)}
    (survives : ∀ place eid pfx, Survives (next place eid pfx))
    : Survives (match searchEid eidName st with
        | none => answer .errEidDoesNotExists st
        | some (place, eid) => do next place eid (← eidPrefix lib junk cPrefix))
      ↔ (Finds eidName st → cPrefix.length < addrbuflen) := by
  split
  · next missing => simp [searchEid_eq_none.mp missing]
  · next place eid found =>
      have there : Finds eidName st := by
        by_contra missing
        rw [searchEid_eq_none.mpr missing] at found
        cases found
      rw [survives_bind, eidPrefix_survives_iff]
      simp only [there, true_imp_iff]
      exact and_iff_left fun pfx _ => survives _ _ _

theorem cmdSetEidPrefix_survives_iff (named : args 1 = some eidName)
    : Survives (cmdSetEidPrefix lib junk args st)
      ↔ ∀ cPrefix, args 3 = some cPrefix → Finds eidName st → cPrefix.length < addrbuflen := by
  unfold cmdSetEidPrefix
  rw [named]
  cases given : args 3 with
  | none => simp
  | some cPrefix =>
      simp only [Option.some.injEq, forall_eq']
      refine prefixCommand_survives_iff fun place eid pfx => ?_
      split
      · exact survives_answer _ _
      · split <;> exact survives_answer _ _

theorem cmdUnsetEidPrefix_survives_iff {action : List Byte} (named : args 1 = some eidName)
    (acts : args 2 = some action)
    : Survives (cmdUnsetEidPrefix lib junk args st)
      ↔ ∀ cPrefix, args 3 = some cPrefix → Finds eidName st → cPrefix.length < addrbuflen := by
  unfold cmdUnsetEidPrefix
  rw [named, acts]
  cases given : args 3 with
  | none => simp
  | some cPrefix =>
      simp only [Option.some.injEq, forall_eq']
      refine prefixCommand_survives_iff fun place eid pfx => ?_
      split
      · exact survives_answer _ _
      · split <;> exact survives_answer _ _

/-- `config_eid` survives the words that do not crash it, and no others. -/
theorem configEid_survives_iff : Survives (configEid lib junk args st) ↔ ¬ Crashes args st := by
  unfold configEid
  split
  · next absent =>
      refine iff_of_true (survives_answer _ _) ?_
      rintro ⟨eidName, named, _, crash⟩
      rcases absent with absent | absent
      · rw [absent] at named
        cases named
      · rw [absent] at crash
        rcases crash with ⟨acts, _⟩ | ⟨acts, _⟩ <;> cases acts
  · next given =>
      rw [not_or] at given
      obtain ⟨eidName, named⟩ := Option.ne_none_iff_exists'.mp given.1
      obtain ⟨action, acts⟩ := Option.ne_none_iff_exists'.mp given.2
      have create : Survives (cmdCreateEid args st) := by
        unfold cmdCreateEid
        refine survives_bind.mpr ⟨survives_present.mpr given.1, fun _ _ => ?_⟩
        split <;> exact survives_answer _ _
      have delete : Survives (cmdDeleteEid args st) := by
        unfold cmdDeleteEid
        refine survives_bind.mpr ⟨survives_present.mpr given.1, fun _ _ => ?_⟩
        split <;> exact survives_answer _ _
      have fifth {set unset other : Except CommandFault (ReturnType × Lixyd)}
          (survives : Survives other)
          : Survives (if args 4 = none then set else strcmp (args 4) "delete"
                >>= fun same => if same then unset else other)
            ↔ (args 4 = none → Survives set)
              ∧ (args 4 = some (ascii "delete") → Survives unset) := by
        split
        · next last => simp [last]
        · next more =>
            rw [survives_ite_strcmp more]
            simp [more, survives]
      have words : Crashes args st
          ↔ Finds eidName st
            ∧ (action = ascii "authkey" ∧ args 3 = none
              ∨ action = ascii "prefix" ∧ (args 4 = none ∨ args 4 = some (ascii "delete"))
                ∧ ∃ cPrefix, args 3 = some cPrefix ∧ addrbuflen ≤ cPrefix.length) := by
        simp [Crashes, named, acts]
      rw [survives_ite_strcmp given.2, survives_ite_strcmp given.2, survives_ite_strcmp given.2,
        survives_ite_strcmp given.2, fifth (survives_answer _ _),
        cmdSetEidAuthenticationKey_survives_iff named, cmdSetEidPrefix_survives_iff named,
        cmdUnsetEidPrefix_survives_iff named acts, words, acts]
      simp only [Option.some.injEq, ne_eq, create, delete, survives_answer, imp_true_iff, true_and,
        and_true]
      by_cases isKey : action = ascii "authkey"
      · have others : ascii "authkey" ≠ ascii "create" ∧ ascii "authkey" ≠ ascii "delete"
            ∧ ascii "authkey" ≠ ascii "prefix" := by decide
        simp [isKey, others]
      · by_cases isPrefix : action = ascii "prefix"
        · have others : ascii "prefix" ≠ ascii "create" ∧ ascii "prefix" ≠ ascii "delete"
              ∧ ascii "prefix" ≠ ascii "authkey" := by decide
          simp only [isPrefix, others, not_false_eq_true, true_imp_iff, false_imp_iff, false_and,
            false_or, true_and]
          constructor
          · rintro ⟨set, unset⟩ ⟨there, last, cPrefix, arg, long⟩
            have short : cPrefix.length < addrbuflen :=
              last.elim (fun last => set last cPrefix arg there)
                (fun last => unset last cPrefix arg there)
            omega
          · intro fits
            refine ⟨fun last cPrefix arg there => ?_, fun last cPrefix arg there => ?_⟩
            · by_contra long
              exact fits ⟨there, .inl last, cPrefix, arg, Nat.le_of_not_lt long⟩
            · by_contra long
              exact fits ⟨there, .inr last, cPrefix, arg, Nat.le_of_not_lt long⟩
        · simp [isKey, isPrefix]

end

-----------------------------------------------------------------------------------------
-- A client's message
-----------------------------------------------------------------------------------------

/-- The word for the commands on EIDs is `eid`, and no other. -/
theorem searchCmdNode_eq_eid {cmd : Option (List Byte)}
    : searchCmdNode cmd = some .eid ↔ cmd = some (ascii "eid") := by
  constructor
  · intro found
    obtain ⟨word, rfl, found⟩ := Option.bind_eq_some_iff.mp found
    obtain ⟨⟨literal, node⟩, hit, found⟩ := Option.bind_eq_some_iff.mp found
    obtain rfl : node = .eid := Option.some.inj found
    have listed := List.mem_of_find?_eq_some hit
    have same := List.find?_some hit
    obtain rfl : literal = "eid" := by simpa [cmdTuple] using listed
    rw [beq_iff_eq.mp same]
  · rintro rfl
    decide

/-- The first word of a crashing line is `eid`. -/
theorem execCommand_survives_iff {lib : Library} {junk : Junk} {args : Args} {st : Lixyd}
    : Survives (execCommand lib junk args st)
      ↔ (args 0 = some (ascii "eid") → ¬ Crashes args st) := by
  unfold execCommand
  cases found : searchCmdNode (args 0) with
  | none =>
      refine iff_of_true (survives_answer _ _) fun isEid => ?_
      rw [searchCmdNode_eq_eid.mpr isEid] at found
      cases found
  | some node =>
      have other (different : node ≠ .eid) : args 0 ≠ some (ascii "eid") := by
        intro isEid
        rw [searchCmdNode_eq_eid.mpr isEid] at found
        exact different (Option.some.inj found).symm
      cases node with
      | mapserver =>
          exact iff_of_true (configMapServer_survives _ _ _) fun h => absurd h (other nofun)
      | locator => exact iff_of_true (configLocator_survives _ _ _) fun h => absurd h (other nofun)
      | route => exact iff_of_true (configRoute_survives _ _) fun h => absurd h (other nofun)
      | listing =>
          refine iff_of_true ?_ fun h => absurd h (other nofun)
          exact survives_bind.mpr ⟨configShow_survives _ _, fun _ _ => survives_ok _⟩
      | eid =>
          rw [searchCmdNode_eq_eid.mp found]
          simp only [true_imp_iff]
          exact configEid_survives_iff

/-- A message that leaves room in the read buffer is split, and the command it names passes no
NULL and overruns no address buffer, unless its words are those that crash `config_eid`.
-/
theorem lispOpThread_survives_iff {lib : Library} {junk : Junk} {msg : List Byte} {st : Lixyd}
    (short : msg.length < controlMsgBufLen)
    : ∃ split, splitMessage msg = .ok split
        ∧ (Survives (lispOpThread lib junk msg st)
          ↔ ∀ words, split = some words → words[0]? = some (ascii "eid")
            → ¬ Crashes (words[·]?) st) := by
  obtain ⟨split, done⟩ := splitMessage_total short
  refine ⟨split, done, ?_⟩
  rw [lispOpThread, done]
  cases split with
  | none => exact iff_of_true (survives_answer _ _) nofun
  | some words =>
      rw [survives_bind]
      simp [call, Except.mapError, execCommand_survives_iff]

/-- A split message runs the command that its words are. -/
theorem lispOpThread_words {lib : Library} {junk : Junk} {msg : List Byte} {st : Lixyd}
    {words : List (List Byte)} (split : splitMessage msg = .ok (some words))
    : lispOpThread lib junk msg st = execCommand lib junk (words[·]?) st := by
  rw [lispOpThread, split]
  rfl

/-- Joined plain words are split into the words. -/
theorem splitMessage_words (words : List (List Byte)) (given : words ≠ [])
    (plain : ∀ word ∈ words, Plain word) (few : words.length < controlArgsMax)
    (short : (joined words).length < controlMsgBufLen)
    : splitMessage (joined words) = .ok (some words) := by
  have split := @splitMessage_joined words [] given plain nofun (by rwa [List.append_nil])
  rwa [List.append_nil, if_neg (by omega)] at split

/-- ` eid a prefix 10.1.0.0/16` -/
def prefixLine : List (List Byte) :=
  [ascii "eid", ascii "a", ascii "prefix", ascii "10.1.0.0/16"]

/-- Witness: the line, once the EID is there. -/
theorem prefixLine_survives
    : ∃ st, run (commandStep testLibrary) .start wholeSite = .ok st
        ∧ (searchEid (ascii "a") st).isSome
        ∧ Survives (lispOpThread testLibrary testJunk (joined prefixLine) st) := by
  obtain ⟨st, ran, there⟩ : ∃ st, run (commandStep testLibrary) .start wholeSite = .ok st
      ∧ (searchEid (ascii "a") st).isSome :=
    ⟨_, rfl, rfl⟩
  have split : splitMessage (joined prefixLine) = .ok (some prefixLine) :=
    splitMessage_words prefixLine nofun (by decide) (by decide) (by decide)
  obtain ⟨split', done, survives⟩ := @lispOpThread_survives_iff testLibrary testJunk
    (joined prefixLine) st (by decide)
  obtain rfl := Except.ok.inj (split.symm.trans done)
  refine ⟨st, ran, there, survives.mpr ?_⟩
  rintro _ ⟨⟩ _ ⟨_, _, _, ⟨isKey, _⟩ | ⟨_, _, cPrefix, given, long⟩⟩
  · exact absurd isKey (by decide)
  · obtain rfl : ascii "10.1.0.0/16" = cPrefix := Option.some.inj given
    exact absurd long (by decide)

/-- Once there is an EID a, setting its key without a key reads a string at NULL, and an EID
prefix of 56 bytes runs over the end of the address buffer.
-/
theorem keylessAuthkey_crashes
    : ∃ st, lispOpThread testLibrary testJunk (ascii " eid a create") .start = .ok (.success, st)
        ∧ lispOpThread testLibrary testJunk (ascii " eid a authkey") st = .error .absentArgument
        ∧ lispOpThread testLibrary testJunk
            (ascii " eid a prefix " ++ List.replicate addrbuflen 0x31) st
          = .error (.overflow addrbuflen) := by
  have create : splitMessage (ascii " eid a create")
      = .ok (some [ascii "eid", ascii "a", ascii "create"]) :=
    splitMessage_words [ascii "eid", ascii "a", ascii "create"] nofun (by decide)
      (by decide) (by decide)
  have authkey : splitMessage (ascii " eid a authkey")
      = .ok (some [ascii "eid", ascii "a", ascii "authkey"]) :=
    splitMessage_words [ascii "eid", ascii "a", ascii "authkey"] nofun (by decide)
      (by decide) (by decide)
  have long : splitMessage (ascii " eid a prefix " ++ List.replicate addrbuflen 0x31)
      = .ok (some [ascii "eid", ascii "a", ascii "prefix", List.replicate addrbuflen 0x31]) :=
    splitMessage_words
      [ascii "eid", ascii "a", ascii "prefix", List.replicate addrbuflen 0x31] nofun
      (by decide) (by decide) (by decide)
  refine ⟨_, lispOpThread_words create, ?_, ?_⟩
  · rw [lispOpThread_words authkey]
    rfl
  · rw [lispOpThread_words long]
    rfl

end Lixy.Control
