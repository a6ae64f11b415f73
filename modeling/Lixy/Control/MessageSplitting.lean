import Mathlib.Data.List.TakeWhile
import Lixy.Control.CommandLines

/-! What `strsplit` makes of any message that the control thread reads, and the messages that it
splits into their words.
-/

namespace Lixy.Control

open ByteStrings

-----------------------------------------------------------------------------------------
-- The words of a text
-----------------------------------------------------------------------------------------

/-- A list splits at the first datum that a test fails. -/
theorem exists_leading {α : Type} (test : α → Bool) (xs : List α)
    : ∃ front back, xs = front ++ back ∧ (∀ x ∈ front, test x = true)
        ∧ ∀ x, back.head? = some x → test x = false := by
  refine ⟨xs.takeWhile test, xs.dropWhile test, List.takeWhile_append_dropWhile.symm,
    List.all_eq_true.mp List.all_takeWhile, fun x there => ?_⟩
  have stops := List.head?_dropWhile_not test xs
  rw [there] at stops
  exact stops

/-- The maximal runs of bytes greater than a blank. -/
def wordRuns (text : List Byte) : List (List Byte) :=
  (text.splitOnP (· ≤ 0x20)).filter (· ≠ [])

section

variable {c : Byte} {text blanks word : List Byte}

theorem wordRuns_nil : wordRuns [] = [] := rfl

/-- A blank belongs to no run. -/
theorem wordRuns_blank (blank : c ≤ 0x20) : wordRuns (c :: text) = wordRuns text := by
  rw [wordRuns, List.splitOnP_cons_eq_if_modifyHead, if_pos (by simpa using blank)]
  rfl

theorem wordRuns_blanks (isBlank : ∀ c ∈ blanks, c ≤ 0x20)
    : wordRuns (blanks ++ text) = wordRuns text := by
  induction blanks with
  | nil => rfl
  | cons c rest ih =>
      rw [List.cons_append, wordRuns_blank (isBlank c (by simp)),
        ih fun d mem => isBlank d (List.mem_cons_of_mem _ mem)]

/-- A word before a blank, or at the end, is the first run. -/
theorem wordRuns_word (nonempty : word ≠ []) (above : ∀ c ∈ word, 0x20 < c)
    (ends : ∀ c, text.head? = some c → c ≤ 0x20)
    : wordRuns (word ++ text) = word :: wordRuns text := by
  have within : ∀ c ∈ word, decide (c ≤ 0x20) = false := fun c mem => by
    simpa using above c mem
  cases text with
  | nil =>
      rw [List.append_nil, wordRuns, List.splitOnP_eq_singleton within, wordRuns_nil]
      simp [nonempty]
  | cons c rest =>
      have cut : (word ++ c :: rest).splitOnP (· ≤ 0x20) = [word] ++ rest.splitOnP (· ≤ 0x20) := by
        rw [List.splitOnP_append_cons word rest (by simpa using ends c rfl),
          List.splitOnP_eq_singleton within]
      rw [wordRuns_blank (ends c rfl), wordRuns, cut, List.filter_append, wordRuns]
      simp [nonempty]

end

/-- A byte of ASCII is a word's where it is greater than a blank. -/
theorem isWord_ascii {c : Byte} (inAscii : c < 0x80) : isWord c = decide (0x20 < c) := by
  have all : ∀ c : Byte, c < 0x80 → isWord c = decide (0x20 < c) := by decide +kernel
  exact all c inAscii

/-- A text that starts with a word, if with anything, is its runs with blanks behind each; by
induction on its length.
-/
theorem spaced_wordRuns {text : List Byte} (plain : ∀ c ∈ text, c ≠ 0 ∧ c < 0x80)
    (starts : ∀ c, text.head? = some c → 0x20 < c)
    : Spaced text (wordRuns text) := by
  induction length : text.length using Nat.strong_induction_on generalizing text with
  | _ n ih =>
      obtain ⟨word, after, rfl, above, word_ends⟩ := exists_leading (0x20 < ·) text
      obtain ⟨blanks, more, rfl, isBlank, blanks_end⟩ := exists_leading (· ≤ 0x20) after
      simp only [decide_eq_true_eq, decide_eq_false_iff_not, BitVec.not_lt, BitVec.not_le]
        at above word_ends isBlank blanks_end
      by_cases nonempty : word = []
      · -- the text does not start with a word, so that it is empty
        subst nonempty
        have empty : blanks ++ more = [] := by
          cases text_eq : blanks ++ more with
          | nil => rfl
          | cons c rest =>
              rw [text_eq] at word_ends
              rw [List.nil_append, text_eq] at starts
              exact absurd (starts c rfl) (BitVec.not_lt.mpr (word_ends c rfl))
        rw [List.nil_append, empty]
        exact .nil
      · have shorter : more.length < n := by
          have := List.length_pos_iff.mpr nonempty
          simp only [List.length_append] at length
          omega
        have apart : blanks = [] → more = [] := by
          rintro rfl
          cases more with
          | nil => rfl
          | cons c rest => exact absurd (blanks_end c rfl) (BitVec.not_lt.mpr (word_ends c rfl))
        have next := ih more.length shorter (fun c mem => plain c (by simp [mem])) blanks_end rfl
        rw [wordRuns_word nonempty above word_ends, wordRuns_blanks isBlank, ← List.append_assoc]
        refine .cons nonempty (fun c mem => ?_) (fun c mem => ⟨(plain c (by simp [mem])).1, ?_⟩)
          apart next
        · rw [isWord_ascii (plain c (by simp [mem])).2]
          exact decide_eq_true (above c mem)
        · rw [isWord_ascii (plain c (by simp [mem])).2]
          exact decide_eq_false (BitVec.not_lt.mpr (isBlank c mem))

-----------------------------------------------------------------------------------------
-- The loop on any text
-----------------------------------------------------------------------------------------

/-- A loop that nothing stops goes behind the end. -/
theorem advance_past {goesOn : Byte → Bool} {mem : List Byte} (onwards : ∀ c ∈ mem, goesOn c = true)
    : advance goesOn mem = .error (.readPast 0) := by
  induction mem with
  | nil => rfl
  | cons c rest ih =>
      rw [advance, if_pos (onwards c (by simp)),
        ih fun d mem => onwards d (List.mem_cons_of_mem _ mem)]
      rfl

section

variable {room c : Nat} {front text tail : List Byte} {words : List (List Byte)}

/-- Without a NUL the loop goes behind the end of the buffer unless there are more words than
room.
-/
def Unended (buf : List Byte) (c room words : Nat) : Prop :=
  (words ≤ room → ∃ fault, splitWords buf c room = .error fault)
    ∧ (room < words → ∃ out argv, splitWords buf c room = .ok (out, argv) ∧ argv.length = room)

theorem Spaced.words_nil (spaced : Spaced text words) (empty : text = []) : words = [] := by
  cases spaced with
  | nil => rfl
  | cons nonempty => simp [nonempty] at empty

theorem unended_nil (start : front.length = c) : Unended (front ++ []) c room 0 := by
  refine ⟨fun _ => ?_, nofun⟩
  have past : rd (front ++ []) c = .error (.readPast c) := by
    rw [List.append_nil, rd, List.getElem?_eq_none (Nat.le_of_eq start)]
  cases room <;> exact ⟨_, by rw [splitWords, past]; rfl⟩

/-- One word, which may be empty before blanks. -/
theorem unended_word {word blanks : List Byte} (start : front.length = c)
    (nonempty : word ++ blanks ≠ []) (word_isWord : ∀ c ∈ word, isWord c = true)
    (isBlank : ∀ c ∈ blanks, c ≠ 0 ∧ isWord c = false) (apart : blanks = [] → text = [])
    (spaced : Spaced text words)
    (next : ∀ front c, front.length = c → Unended (front ++ text) c room words.length)
    : Unended (front ++ (word ++ (blanks ++ text))) c (room + 1) (words.length + 1) := by
  cases text with
  | nil =>
      obtain rfl := spaced.words_nil rfl
      refine ⟨fun _ => ⟨.readPast 0, ?_⟩, fun more => absurd more (by simp)⟩
      obtain ⟨first, read, first_ne⟩ := @rd_token front word blanks [] c start nonempty word_isWord
        isBlank
      have drop : (front ++ (word ++ (blanks ++ []))).drop c = word ++ (blanks ++ []) :=
        List.drop_left' start
      have behind : (front ++ (word ++ (blanks ++ []))).drop (c + word.length) = blanks := by
        rw [List.append_nil, ← List.append_assoc]
        exact List.drop_left' (by rw [List.length_append, start])
      cases blanks with
      | nil =>
          have past : advance (fun b => b ≠ 0 && isWord b) (word ++ ([] ++ []))
              = .error (.readPast 0) := by
            rw [List.append_nil, List.append_nil]
            exact advance_past fun b mem => goesOn_word (word_isWord b mem)
          simp only [splitWords, read, bind, Except.bind, if_neg first_ne, drop, past]
      | cons blank blanks =>
          have overWord : advance (fun b => b ≠ 0 && isWord b) (word ++ (blank :: blanks ++ []))
              = .ok word.length :=
            advance_eq (fun b mem => goesOn_word (word_isWord b mem))
              (by simp [(isBlank blank (by simp)).2])
          have past : advance (fun b => b ≠ 0 && !isWord b) (blank :: blanks)
              = .error (.readPast 0) :=
            advance_past fun b mem => goesOn_blank (isBlank b mem)
          simp only [splitWords, read, bind, Except.bind, if_neg first_ne, drop, overWord, behind,
            past]
  | cons stop rest =>
      have step := @splitWords_word room front word blanks rest stop c start nonempty word_isWord
        isBlank (fun empty => absurd (apart empty) (List.cons_ne_nil _ _))
        (.inr (spaced.starts rfl))
      obtain ⟨few, many⟩ := next (front ++ word ++ List.replicate blanks.length 0)
        (c + word.length + blanks.length) (by simp [start]; omega)
      rw [Unended, step]
      constructor
      · intro le
        obtain ⟨fault, failed⟩ := few (by omega)
        exact ⟨fault, by rw [failed]; rfl⟩
      · intro lt
        obtain ⟨out, argv, split, length⟩ := many (by omega)
        exact ⟨out, c :: argv, by rw [split]; rfl, by rw [List.length_cons, length]⟩

/-- Any words, by induction on the room. -/
theorem unended_spaced (start : front.length = c) (spaced : Spaced text words)
    : Unended (front ++ text) c room words.length := by
  induction room generalizing front text words c with
  | zero =>
      cases spaced with
      | nil => exact unended_nil start
      | @cons word blanks text words nonempty word_isWord isBlank _ _ =>
          refine ⟨nofun, fun _ => ?_⟩
          obtain ⟨first, read, _⟩ := @rd_token front word blanks text c start (by simp [nonempty])
            word_isWord isBlank
          refine ⟨front ++ (word ++ blanks ++ text), [], ?_, rfl⟩
          rw [List.append_assoc, splitWords, read]
          rfl
  | succ room ih =>
      cases spaced with
      | nil => exact unended_nil start
      | cons nonempty word_isWord isBlank apart spaced =>
          rw [List.append_assoc]
          exact unended_word start (by simp [nonempty]) word_isWord isBlank apart spaced
            fun _ _ start => ih start spaced

theorem unended_tokens (start : front.length = c) (tokens : Tokens text words)
    : Unended (front ++ text) c (room + 1) words.length := by
  cases tokens with
  | spaced spaced => exact unended_spaced start spaced
  | @led blanks text words nonempty isBlank spaced =>
      exact @unended_word room c front text words [] blanks start (by simpa using nonempty) nofun
        isBlank (fun empty => absurd empty nonempty) spaced
        fun _ _ start => unended_spaced start spaced

theorem Tokens.words_nil (tokens : Tokens text words) (empty : text = []) : words = [] := by
  cases tokens with
  | spaced spaced => exact spaced.words_nil empty
  | led nonempty => simp [nonempty] at empty

/-- A buffer without a NUL is split only where it has more words than fit, and then -1 is
returned.
-/
theorem strsplit_unended {spaces : List Byte} (isSpace : ∀ c ∈ spaces, c = 0x20)
    (starts : ∀ c, text.head? = some c → c ≠ 0x20) (tokens : Tokens text words)
    : (words.length ≤ controlArgsMax
        → ∃ fault, strsplit (spaces ++ text) controlArgsMax = .error fault)
      ∧ (controlArgsMax < words.length → strsplit (spaces ++ text) controlArgsMax = .ok none) := by
  have isSpace' : ∀ c ∈ spaces, (c == 0x20) = true := fun c mem => beq_iff_eq.mpr (isSpace c mem)
  cases text with
  | nil =>
      obtain rfl := tokens.words_nil rfl
      refine ⟨fun _ => ⟨.readPast 0, ?_⟩, nofun⟩
      rw [List.append_nil, strsplit, advance_past isSpace']
      rfl
  | cons stop rest =>
      have skipped : advance (· == 0x20) (spaces ++ stop :: rest) = .ok spaces.length :=
        advance_eq isSpace' (beq_eq_false_iff_ne.mpr (starts stop rfl))
      obtain ⟨few, many⟩ : Unended (spaces ++ stop :: rest) spaces.length controlArgsMax
          words.length :=
        @unended_tokens (controlArgsMax - 1) spaces.length spaces (stop :: rest) words rfl tokens
      constructor
      · intro le
        obtain ⟨fault, failed⟩ := few le
        refine ⟨fault, ?_⟩
        rw [strsplit]
        simp only [skipped, failed, bind, Except.bind]
      · intro lt
        obtain ⟨out, argv, split, length⟩ := many lt
        rw [strsplit]
        simp only [skipped, split, bind, Except.bind, pure, Except.pure]
        rw [if_pos (Nat.le_of_eq length.symm)]

end

-----------------------------------------------------------------------------------------
-- Messages
-----------------------------------------------------------------------------------------

/-- What `strsplit` is to split: the message up to its first NUL. -/
def messageText (msg : List Byte) : List Byte := msg.takeWhile (· ≠ 0)

/-- The message starts, behind any spaces, with another control character. -/
def StartsBlank (msg : List Byte) : Prop :=
  ∃ c rest, (messageText msg).dropWhile (· == 0x20) = c :: rest ∧ c < 0x20

/-- A NUL is left in the buffer behind the text. -/
def Terminated (msg : List Byte) : Prop := msg.length < controlMsgBufLen ∨ 0 ∈ msg

/-- `strsplit` stays inside the buffer, returns -1 for just the messages with too many words, and
splits any other into its words.
-/
def SplitsExactly (msg : List Byte) : Prop :=
  ∃ res, strsplit (readBuf msg) controlArgsMax = .ok res
    ∧ (res = none ↔ controlArgsMax ≤ (wordRuns (messageText msg)).length)
    ∧ ∀ buf argv, res = some (buf, argv)
        → argv.mapM (rdString buf) = .ok (wordRuns (messageText msg))

section

variable {msg : List Byte}

/-- The buffer of a terminated message. -/
theorem readBuf_terminated (fits : msg.length ≤ controlMsgBufLen) (terminated : Terminated msg)
    : ∃ tail, readBuf msg = messageText msg ++ 0 :: tail := by
  have whole : readBuf msg = msg ++ List.replicate (controlMsgBufLen - msg.length) 0 := by
    rw [readBuf, List.take_of_length_le fits, overlay, List.drop_replicate]
  have parts : messageText msg ++ msg.dropWhile (· ≠ 0) = msg := List.takeWhile_append_dropWhile
  rw [whole]
  cases behind : msg.dropWhile (· ≠ 0) with
  | nil =>
      rw [behind, List.append_nil] at parts
      have noNul : 0 ∉ msg := fun mem => by
        have passes := List.takeWhile_eq_self_iff.mp parts 0 mem
        simp at passes
      have short := terminated.resolve_right noNul
      refine ⟨List.replicate (controlMsgBufLen - msg.length - 1) 0, ?_⟩
      rw [parts, ← List.replicate_succ]
      congr
      omega
  | cons c rest =>
      have nul := List.head?_dropWhile_not (fun c : Byte => c ≠ 0) msg
      rw [behind] at nul parts
      obtain rfl : c = 0 := by simpa using nul
      exact ⟨rest ++ List.replicate (controlMsgBufLen - msg.length) 0, by
        rw [← List.cons_append, ← List.append_assoc, parts]⟩

/-- The buffer of any other is its text. -/
theorem readBuf_unterminated (fits : msg.length ≤ controlMsgBufLen)
    (unterminated : ¬ Terminated msg)
    : readBuf msg = messageText msg := by
  obtain ⟨full, noNul⟩ := not_or.mp unterminated
  have whole : messageText msg = msg :=
    List.takeWhile_eq_self_iff.mpr fun c mem => by
      simpa using ne_of_mem_of_not_mem mem noNul
  rw [readBuf, List.take_of_length_le fits, overlay, List.drop_replicate, whole,
    show controlMsgBufLen - msg.length = 0 by omega, List.replicate_zero, List.append_nil]

/-- A text is spaces and what is left of it behind these. -/
theorem exists_spaces (text : List Byte)
    : ∃ spaces, text = spaces ++ text.dropWhile (· == 0x20) ∧ (∀ c ∈ spaces, c = 0x20)
        ∧ ∀ c, (text.dropWhile (· == 0x20)).head? = some c → c ≠ 0x20 := by
  refine ⟨text.takeWhile (· == 0x20), List.takeWhile_append_dropWhile.symm, fun c mem => ?_,
    fun c there => ?_⟩
  · exact beq_iff_eq.mp (List.all_eq_true.mp List.all_takeWhile c mem)
  · have stops := List.head?_dropWhile_not (· == (0x20 : Byte)) text
    rw [there] at stops
    exact beq_eq_false_iff_ne.mp stops

/-- What the loop takes for the words of a message: its runs, with an empty word in front where
it starts with a control character.
-/
theorem tokens_message (inAscii : ∀ c ∈ msg, c < 0x80)
    : ∃ words, Tokens ((messageText msg).dropWhile (· == 0x20)) words
        ∧ (¬ StartsBlank msg ∧ words = wordRuns (messageText msg)
          ∨ StartsBlank msg ∧ words = [] :: wordRuns (messageText msg)) := by
  have plain_text : ∀ c ∈ messageText msg, c ≠ 0 ∧ c < 0x80 := fun c mem =>
    ⟨by simpa using List.all_eq_true.mp List.all_takeWhile c mem,
      inAscii c ((List.takeWhile_sublist _).mem mem)⟩
  rw [StartsBlank]
  generalize messageText msg = text at plain_text ⊢
  obtain ⟨spaces, parts, isSpace, notSpace⟩ := exists_spaces text
  generalize text.dropWhile (· == 0x20) = rest at parts notSpace ⊢
  subst parts
  have plain : ∀ c ∈ rest, c ≠ 0 ∧ c < 0x80 := fun c mem => plain_text c (by simp [mem])
  rw [wordRuns_blanks fun c mem => BitVec.le_of_eq (isSpace c mem)]
  obtain ⟨blanks, more, rfl, isBlank, starts⟩ := exists_leading (· ≤ 0x20) rest
  simp only [decide_eq_true_eq, decide_eq_false_iff_not, BitVec.not_le] at isBlank starts
  cases blanks with
  | nil =>
      refine ⟨_, .spaced (spaced_wordRuns plain starts), .inl ⟨?_, rfl⟩⟩
      rintro ⟨c, behind, more_eq, control⟩
      have above := starts c (List.head?_eq_some_iff.mpr ⟨behind, more_eq⟩)
      exact absurd (BitVec.lt_trans control above) (BitVec.lt_irrefl c)
  | cons c blanks =>
      have control : c < 0x20 := by
        have le : c ≤ 0x20 := isBlank c (by simp)
        have ne : c ≠ 0x20 := notSpace c rfl
        bv_omega
      have spaced := spaced_wordRuns (fun d mem => plain d (by simp [mem])) starts
      rw [wordRuns_blanks isBlank]
      refine ⟨_, .led (List.cons_ne_nil c blanks) (fun d mem => ⟨(plain d ?_).1, ?_⟩) spaced,
        .inr ⟨⟨c, _, rfl, control⟩, rfl⟩⟩
      · exact List.mem_append_left _ mem
      · rw [isWord_ascii (plain d (List.mem_append_left _ mem)).2]
        exact decide_eq_false (BitVec.not_lt.mpr (isBlank d mem))

end

section

variable {msg : List Byte}

/-- A message with too many words is refused. -/
theorem splitsExactly_of_none (split : strsplit (readBuf msg) controlArgsMax = .ok none)
    : SplitsExactly msg ↔ controlArgsMax ≤ (wordRuns (messageText msg)).length := by
  constructor
  · rintro ⟨res, done, refused, _⟩
    obtain rfl := Except.ok.inj (split.symm.trans done)
    exact refused.mp rfl
  · intro many
    exact ⟨none, split, iff_of_true rfl many, nofun⟩

/-- A message that is split is split exactly where the words found are its runs. -/
theorem splitsExactly_of_some {buf : List Byte} {argv : List Nat} {words : List (List Byte)}
    (split : strsplit (readBuf msg) controlArgsMax = .ok (some (buf, argv)))
    (strings : argv.mapM (rdString buf) = .ok words) (few : words.length < controlArgsMax)
    : SplitsExactly msg ↔ words = wordRuns (messageText msg) := by
  constructor
  · rintro ⟨res, done, _, exactly⟩
    obtain rfl := Except.ok.inj (split.symm.trans done)
    exact Except.ok.inj (strings.symm.trans (exactly buf argv rfl))
  · intro same
    refine ⟨_, split, iff_of_false nofun (by rw [← same]; omega), ?_⟩
    rintro _ _ ⟨⟩
    rw [strings, same]

/-- A message with a NUL in the buffer is split exactly where it does not start with a control
character, or has too many words anyway.
-/
theorem splitsExactly_terminated (fits : msg.length ≤ controlMsgBufLen)
    (inAscii : ∀ c ∈ msg, c < 0x80) (terminated : Terminated msg)
    : SplitsExactly msg
      ↔ (StartsBlank msg → controlArgsMax ≤ (wordRuns (messageText msg)).length) := by
  obtain ⟨words, tokens, lead⟩ := tokens_message inAscii
  obtain ⟨spaces, parts, isSpace, starts⟩ := exists_spaces (messageText msg)
  obtain ⟨tail, buf_eq⟩ := readBuf_terminated fits terminated
  rw [parts, List.append_assoc] at buf_eq
  obtain ⟨buf, argv, split, strings⟩ := @strsplit_ended spaces _ tail words isSpace starts tokens
  rw [← buf_eq] at split
  by_cases many : controlArgsMax ≤ words.length
  · rw [if_pos many] at split
    rw [splitsExactly_of_none split]
    rcases lead with ⟨not_lead, rfl⟩ | ⟨lead, rfl⟩
    · exact iff_of_true many fun _ => many
    · exact (true_imp_iff.symm.trans (imp_congr_left (iff_true_intro lead).symm))
  · rw [if_neg many] at split
    rw [List.take_of_length_le (by omega)] at strings
    rw [splitsExactly_of_some split strings (by omega)]
    rcases lead with ⟨not_lead, rfl⟩ | ⟨lead, rfl⟩
    · exact iff_of_true rfl fun lead => absurd lead not_lead
    · rw [List.length_cons] at many
      exact iff_of_false (List.cons_ne_self _ _) fun all => many (Nat.le_succ_of_le (all lead))

/-- A message that fills the buffer without a NUL is split exactly where it has more words than
fit.
-/
theorem splitsExactly_unterminated (fits : msg.length ≤ controlMsgBufLen)
    (inAscii : ∀ c ∈ msg, c < 0x80) (unterminated : ¬ Terminated msg)
    : SplitsExactly msg
      ↔ controlArgsMax < (wordRuns (messageText msg)).length
        ∨ StartsBlank msg ∧ controlArgsMax = (wordRuns (messageText msg)).length := by
  obtain ⟨words, tokens, lead⟩ := tokens_message inAscii
  obtain ⟨spaces, parts, isSpace, starts⟩ := exists_spaces (messageText msg)
  have buf_eq := readBuf_unterminated fits unterminated
  rw [parts] at buf_eq
  obtain ⟨few, many⟩ := strsplit_unended isSpace starts tokens
  rw [← buf_eq] at few many
  by_cases le : words.length ≤ controlArgsMax
  · obtain ⟨fault, failed⟩ := few le
    refine iff_of_false ?_ ?_
    · rintro ⟨res, done, _⟩
      cases failed.symm.trans done
    · rcases lead with ⟨not_lead, rfl⟩ | ⟨lead, rfl⟩
      · rintro (more | ⟨lead, _⟩)
        · exact absurd more (Nat.not_lt.mpr le)
        · exact not_lead lead
      · rw [List.length_cons] at le
        omega
  · rw [splitsExactly_of_none (many (Nat.lt_of_not_le le))]
    rcases lead with ⟨not_lead, rfl⟩ | ⟨lead, rfl⟩
    · exact iff_of_true (by omega) (.inl (by omega))
    · rw [List.length_cons] at le
      exact ⟨fun _ => (Nat.lt_or_eq_of_le (by omega)).imp id fun eq => ⟨lead, eq⟩,
        fun _ => by omega⟩

/-- Of messages of ASCII bytes that fit the buffer, `strsplit` splits exactly: one with a NUL in
the buffer where it does not start with a control character or has too many words anyway; one
that fills the buffer where it has more words than fit.
-/
theorem splitsExactly_iff (fits : msg.length ≤ controlMsgBufLen)
    (inAscii : ∀ c ∈ msg, c < 0x80)
    : SplitsExactly msg
      ↔ (Terminated msg → StartsBlank msg → controlArgsMax ≤ (wordRuns (messageText msg)).length)
        ∧ (¬ Terminated msg → controlArgsMax < (wordRuns (messageText msg)).length
            ∨ StartsBlank msg ∧ controlArgsMax = (wordRuns (messageText msg)).length) := by
  by_cases terminated : Terminated msg
  · rw [splitsExactly_terminated fits inAscii terminated]
    exact ⟨fun h => ⟨fun _ => h, fun no => absurd terminated no⟩, fun h => h.1 terminated⟩
  · rw [splitsExactly_unterminated fits inAscii terminated]
    exact ⟨fun h => ⟨fun yes => absurd yes terminated, fun _ => h⟩, fun h => h.2 terminated⟩

end

/-- Witness: a line of two words behind a space. -/
theorem showLocator_splitsExactly
    : wordRuns (messageText (0x20 :: ascii "show locator")) = [ascii "show", ascii "locator"]
      ∧ SplitsExactly (0x20 :: ascii "show locator") := by
  refine ⟨rfl, (splitsExactly_iff (by decide) (by decide)).mpr ⟨fun _ lead => ?_, fun no => ?_⟩⟩
  · obtain ⟨c, rest, starts, control⟩ := lead
    cases starts
    exact absurd control (by decide)
  · exact absurd (.inl (by decide)) no

/-- The same line behind a tab: the first string is empty. -/
theorem tabbedLine_not_splitsExactly
    : ¬ ∀ msg : List Byte, msg.length ≤ controlMsgBufLen → (∀ c ∈ msg, c < 0x80)
        → SplitsExactly msg := by
  intro exactly
  have terminated : Terminated (0x09 :: ascii "show locator") := .inl (by decide)
  have lead : StartsBlank (0x09 :: ascii "show locator") := ⟨0x09, _, rfl, by decide⟩
  have split := exactly (0x09 :: ascii "show locator") (by decide) (by decide)
  have many := (splitsExactly_terminated (by decide) (by decide) terminated).mp split lead
  exact absurd many (by decide)

end Lixy.Control
