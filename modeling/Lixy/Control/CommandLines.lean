import Lixy.Control.OpThread
import Mathlib.Algebra.GroupWithZero.Nat

/-! Joining the arguments of lixyctl and splitting the command line in the daemon: what comes
out of a line of spaced words, and when that is what went in.
-/

namespace Lixy.Control

open ByteStrings

-----------------------------------------------------------------------------------------
-- Splitting
-----------------------------------------------------------------------------------------

/-- A loop stops at the first byte that it does not go on at. -/
theorem advance_eq {goesOn : Byte → Bool} {front rest : List Byte} {stop : Byte}
    (onwards : ∀ c ∈ front, goesOn c = true) (stops : goesOn stop = false)
    : advance goesOn (front ++ stop :: rest) = .ok front.length := by
  induction front with
  | nil => simp [advance, stops]
  | cons c front ih =>
      have next := ih (fun d mem => onwards d (by simp [mem]))
      simp only [List.cons_append, advance, onwards c (by simp), if_true, next, bind, Except.bind,
        pure, Except.pure, List.length_cons]

/-- Words with the blanks behind each; only the last word may have none. -/
inductive Spaced : List Byte → List (List Byte) → Prop
  | nil : Spaced [] []
  | cons {word blanks text : List Byte} {words : List (List Byte)} (nonempty : word ≠ [])
      (isWord : ∀ c ∈ word, isWord c = true)
      (isBlank : ∀ c ∈ blanks, c ≠ 0 ∧ Control.isWord c = false)
      (apart : blanks = [] → text = []) (rest : Spaced text words)
      : Spaced (word ++ blanks ++ text) (word :: words)

/-- A string ends at its NUL. -/
theorem rdString_eq {front string rest : List Byte} {off : Nat} (start : front.length = off)
    (noNul : 0 ∉ string)
    : rdString (front ++ (string ++ 0 :: rest)) off = .ok string := by
  have within : (front ++ (string ++ 0 :: rest)).drop off = string ++ 0 :: rest :=
    List.drop_left' start
  rw [rdString, within, if_pos (by simp),
    List.takeWhile_append_of_pos (fun c mem => by simpa using ne_of_mem_of_not_mem mem noNul)]
  simp

/-- A line of spaced words starts with a word's byte, or is empty. -/
theorem Spaced.starts {text rest : List Byte} {words : List (List Byte)} {stop : Byte}
    (h : Spaced text words) (text_eq : text = stop :: rest)
    : isWord stop = true := by
  cases h with
  | nil => cases text_eq
  | @cons word blanks text words nonempty word_isWord _ _ _ =>
      obtain ⟨c, word, rfl⟩ := List.exists_cons_of_ne_nil nonempty
      obtain ⟨rfl, _⟩ := List.cons.inj text_eq
      exact word_isWord c (by simp)

theorem Spaced.head {text : List Byte} {words : List (List Byte)} (h : Spaced text words)
    (tail : List Byte)
    : ∃ stop rest, text ++ 0 :: tail = stop :: rest ∧ (stop = 0 ∨ isWord stop = true) := by
  cases text_eq : text with
  | nil => exact ⟨0, tail, rfl, .inl rfl⟩
  | cons c rest => exact ⟨c, rest ++ 0 :: tail, rfl, .inr (h.starts text_eq)⟩

theorem rd_append {front rest : List Byte} {stop : Byte} {c : Nat} (start : front.length = c)
    : rd (front ++ stop :: rest) c = .ok stop := by
  subst start
  simp only [rd, List.getElem?_append_right (Nat.le_refl _), Nat.sub_self, List.getElem?_cons_zero]

/-- A byte of a word is none of a blank or a NUL. -/
theorem goesOn_word {b : Byte} (word : isWord b = true) : (decide (b ≠ 0) && isWord b) = true := by
  have ne : b ≠ 0 := by
    rintro rfl
    exact absurd word (by decide)
  simpa [word] using ne

theorem goesOn_blank {b : Byte} (isBlank : b ≠ 0 ∧ isWord b = false)
    : (decide (b ≠ 0) && !isWord b) = true := by
  obtain ⟨ne, blank⟩ := isBlank
  simpa [blank] using ne

/-- A word, or the blanks behind an empty one, starts with a byte that is no NUL. -/
theorem rd_token {front word blanks rest : List Byte} {c : Nat} (start : front.length = c)
    (nonempty : word ++ blanks ≠ []) (word_isWord : ∀ c ∈ word, isWord c = true)
    (isBlank : ∀ c ∈ blanks, c ≠ 0 ∧ isWord c = false)
    : ∃ first, rd (front ++ (word ++ (blanks ++ rest))) c = .ok first ∧ first ≠ 0 := by
  obtain ⟨first, more, first_eq⟩ := List.exists_cons_of_ne_nil nonempty
  refine ⟨first, ?_, ?_⟩
  · rw [← List.append_assoc word, first_eq]
    exact rd_append start
  · rcases List.mem_append.mp (first_eq ▸ List.mem_cons_self) with mem | mem
    · rintro rfl
      exact absurd (word_isWord 0 mem) (by decide)
    · exact (isBlank first mem).1

/-- One word, which may be empty before blanks: the loop notes its start, and puts NULs over the
blanks behind it.
-/
theorem splitWords_word {room : Nat} {front word blanks rest : List Byte} {stop : Byte} {c : Nat}
    (start : front.length = c) (nonempty : word ++ blanks ≠ [])
    (word_isWord : ∀ c ∈ word, isWord c = true)
    (isBlank : ∀ c ∈ blanks, c ≠ 0 ∧ isWord c = false) (apart : blanks = [] → stop = 0)
    (stops : stop = 0 ∨ isWord stop = true)
    : splitWords (front ++ (word ++ (blanks ++ stop :: rest))) c (room + 1)
      = (do
        let (buf, argv) ← splitWords
          (front ++ word ++ List.replicate blanks.length 0 ++ stop :: rest)
          (c + word.length + blanks.length) room
        return (buf, c :: argv)) := by
  obtain ⟨first, read, first_ne⟩ := @rd_token front word blanks (stop :: rest) c start nonempty
    word_isWord isBlank
  have behind : (front ++ (word ++ (blanks ++ stop :: rest))).drop (c + word.length)
      = blanks ++ stop :: rest := by
    rw [← List.append_assoc]
    exact List.drop_left' (by rw [List.length_append, start])
  have overWord : advance (fun b => b ≠ 0 && isWord b) (word ++ (blanks ++ stop :: rest))
      = .ok word.length := by
    cases blanks with
    | nil =>
        rw [apart rfl]
        exact advance_eq (fun b mem => goesOn_word (word_isWord b mem)) rfl
    | cons blank blanks =>
        exact advance_eq (fun b mem => goesOn_word (word_isWord b mem))
          (by simp [(isBlank blank (by simp)).2])
  have overBlanks : advance (fun b => b ≠ 0 && !isWord b) (blanks ++ stop :: rest)
      = .ok blanks.length := by
    refine advance_eq (fun b mem => goesOn_blank (isBlank b mem)) ?_
    rcases stops with rfl | word_stop
    · rfl
    · simp [word_stop]
  have cut : wr (front ++ (word ++ (blanks ++ stop :: rest))) (c + word.length)
        (List.replicate blanks.length 0)
      = .ok (front ++ word ++ List.replicate blanks.length 0 ++ stop :: rest) := by
    have middle : overwrite (front ++ word ++ blanks ++ stop :: rest) (c + word.length)
        (List.replicate blanks.length 0)
        = some (front ++ word ++ List.replicate blanks.length 0 ++ stop :: rest) :=
      overwrite_middle (by rw [List.length_append, start]) (by simp)
    rw [wr]
    simp only [← List.append_assoc, middle]
  have drop : (front ++ (word ++ (blanks ++ stop :: rest))).drop c
      = word ++ (blanks ++ stop :: rest) := List.drop_left' start
  simp only [splitWords, read, bind, Except.bind, if_neg first_ne, drop, overWord, behind,
    overBlanks, cut]

/-- The loop splits spaced words: it finds each, up to the room there is, as a string that is
ended by a NUL; by induction on the room.
-/
theorem splitWords_spaced {room : Nat} {front text tail : List Byte} {words : List (List Byte)}
    {c : Nat} (start : front.length = c) (spaced : Spaced text words)
    : ∃ rest argv, splitWords (front ++ (text ++ 0 :: tail)) c room = .ok (front ++ rest, argv)
        ∧ (text = [] → rest = 0 :: tail)
        ∧ argv.mapM (rdString (front ++ rest)) = .ok (words.take room) := by
  induction room generalizing front text words c with
  | zero =>
      obtain ⟨stop, rest, next, _⟩ := spaced.head tail
      refine ⟨text ++ 0 :: tail, [], ?_, ?_, rfl⟩
      · rw [next]
        simp only [splitWords, rd_append start, bind, Except.bind, pure, Except.pure]
      · rintro rfl
        rfl
  | succ room ih =>
      cases spaced with
      | nil =>
          refine ⟨0 :: tail, [], ?_, fun _ => rfl, rfl⟩
          simp only [List.nil_append, splitWords, rd_append start, bind, Except.bind, if_true, pure,
            Except.pure]
      | @cons word blanks text words nonempty word_isWord isBlank apart spaced =>
          obtain ⟨stop, behind, next, stops⟩ := spaced.head tail
          have ends (noBlanks : blanks = []) : stop = 0 := by
            rw [apart noBlanks] at next
            exact (List.cons.inj next).1.symm
          have start' : (front ++ word ++ List.replicate blanks.length 0).length
              = c + word.length + blanks.length := by
            simp [start]
            omega
          obtain ⟨rest, argv, split, last, strings⟩ := ih start' spaced
          have noNul : 0 ∉ word := fun mem => absurd (word_isWord 0 mem) (by decide)
          refine ⟨word ++ (List.replicate blanks.length 0 ++ rest), c :: argv, ?_, ?_, ?_⟩
          · rw [List.append_assoc, List.append_assoc, next,
              splitWords_word start (by simp [nonempty]) word_isWord isBlank ends stops, ← next,
              split]
            simp only [bind, Except.bind, pure, Except.pure, List.append_assoc]
          · intro empty
            simp [nonempty] at empty
          · have string : rdString (front ++ (word ++ (List.replicate blanks.length 0 ++ rest))) c
                = .ok word := by
              cases blanks with
              | nil =>
                  rw [last (apart rfl)]
                  exact rdString_eq start noNul
              | cons blank blanks => exact rdString_eq start noNul
            rw [List.append_assoc, List.append_assoc] at strings
            simp only [List.mapM_cons, string, strings, List.take_succ_cons, bind, Except.bind,
              pure, Except.pure]

/-- What the loop takes for words: one that starts at blanks is empty. -/
inductive Tokens : List Byte → List (List Byte) → Prop
  | spaced {text : List Byte} {words : List (List Byte)} (spaced : Spaced text words)
      : Tokens text words
  | led {blanks text : List Byte} {words : List (List Byte)} (nonempty : blanks ≠ [])
      (isBlank : ∀ c ∈ blanks, c ≠ 0 ∧ isWord c = false) (spaced : Spaced text words)
      : Tokens (blanks ++ text) ([] :: words)

/-- Before a NUL the loop finds the words, up to the room there is, as strings. -/
theorem splitWords_tokens {room c : Nat} {front text tail : List Byte} {words : List (List Byte)}
    (start : front.length = c) (tokens : Tokens text words)
    : ∃ buf argv, splitWords (front ++ (text ++ 0 :: tail)) c (room + 1) = .ok (buf, argv)
        ∧ argv.mapM (rdString buf) = .ok (words.take (room + 1)) := by
  cases tokens with
  | spaced spaced =>
      obtain ⟨rest, argv, split, _, strings⟩ := splitWords_spaced start spaced
      exact ⟨_, argv, split, strings⟩
  | @led blanks text words nonempty isBlank spaced =>
      obtain ⟨stop, behind, next, stops⟩ := spaced.head tail
      obtain ⟨rest, argv, split, _, strings⟩ := @splitWords_spaced room
        (front ++ List.replicate blanks.length 0) text tail words (c + blanks.length)
        (by simp [start]) spaced
      have word := @splitWords_word room front [] blanks behind stop c start
        (by simpa using nonempty) nofun isBlank (fun empty => absurd empty nonempty) stops
      simp only [List.nil_append, ← next, List.append_nil, List.length_nil, Nat.add_zero, split]
        at word
      refine ⟨front ++ List.replicate blanks.length 0 ++ rest, c :: argv, ?_, ?_⟩
      · rw [List.append_assoc, word]
        rfl
      · obtain ⟨blank, blanks, rfl⟩ := List.exists_cons_of_ne_nil nonempty
        have string : rdString (front ++ List.replicate (blank :: blanks).length 0 ++ rest) c
            = .ok [] := by
          rw [List.append_assoc]
          exact rdString_eq start (List.not_mem_nil)
        rw [List.mapM_cons, string, strings]
        rfl

/-- Strings read one by one are as many as their starts. -/
theorem length_of_mapM {α β : Type} {f : α → Except Fault β} {xs : List α} {ys : List β}
    (h : xs.mapM f = .ok ys)
    : ys.length = xs.length := by
  induction xs generalizing ys with
  | nil =>
      cases h
      rfl
  | cons x xs ih =>
      rw [List.mapM_cons] at h
      obtain ⟨y, _, h⟩ := bind_eq_ok.mp h
      obtain ⟨ys', rest, h⟩ := bind_eq_ok.mp h
      cases h
      rw [List.length_cons, List.length_cons, ih rest]

/-- A message that leaves room in the buffer is followed by NULs there. -/
theorem readBuf_eq {msg : List Byte} (short : msg.length < controlMsgBufLen)
    : readBuf msg = msg ++ 0 :: List.replicate (controlMsgBufLen - 1 - msg.length) 0 := by
  have whole : msg.take controlMsgBufLen = msg := List.take_of_length_le (Nat.le_of_lt short)
  have behind : controlMsgBufLen - msg.length = controlMsgBufLen - 1 - msg.length + 1 := by omega
  rw [readBuf, whole, overlay, List.drop_replicate, behind, List.replicate_succ]

/-- Spaces in front of a NUL or a word are skipped, and the words before a NUL are found. -/
theorem strsplit_ended {spaces text tail : List Byte} {words : List (List Byte)}
    (isSpace : ∀ c ∈ spaces, c = 0x20) (starts : ∀ c, text.head? = some c → c ≠ 0x20)
    (tokens : Tokens text words)
    : ∃ buf argv, strsplit (spaces ++ (text ++ 0 :: tail)) controlArgsMax
          = .ok (if controlArgsMax ≤ words.length then none else some (buf, argv))
        ∧ argv.mapM (rdString buf) = .ok (words.take controlArgsMax) := by
  have skipped : advance (· == 0x20) (spaces ++ (text ++ 0 :: tail)) = .ok spaces.length := by
    have isSpace' : ∀ c ∈ spaces, (c == 0x20) = true := fun c mem => beq_iff_eq.mpr (isSpace c mem)
    cases text with
    | nil => exact advance_eq isSpace' rfl
    | cons stop rest => exact advance_eq isSpace' (beq_eq_false_iff_ne.mpr (starts stop rfl))
  obtain ⟨buf, argv, split, strings⟩ :=
    @splitWords_tokens (controlArgsMax - 1) spaces.length spaces text tail words rfl tokens
  have count := length_of_mapM strings
  rw [List.length_take] at count
  have split' : splitWords (spaces ++ (text ++ 0 :: tail)) spaces.length controlArgsMax
      = .ok (buf, argv) := split
  refine ⟨buf, argv, ?_, strings⟩
  rw [strsplit]
  simp only [skipped, split', bind, Except.bind, pure, Except.pure]
  by_cases many : controlArgsMax ≤ words.length
  · rw [if_pos (by omega), if_pos many]
  · rw [if_neg (by omega), if_neg many]

/-- A read line of a blank and spaced words is split into the words, if there are few enough. -/
theorem splitMessage_spaced {text : List Byte} {words : List (List Byte)}
    (spaced : Spaced text words) (short : text.length + 1 < controlMsgBufLen)
    : splitMessage (0x20 :: text)
      = .ok (if controlArgsMax ≤ words.length then none else some words) := by
  have starts : ∀ c, text.head? = some c → c ≠ 0x20 := by
    rintro c there rfl
    obtain ⟨rest, text_eq⟩ := List.head?_eq_some_iff.mp there
    exact absurd (spaced.starts text_eq) (by decide)
  have buf_eq := readBuf_eq (show (0x20 :: text : List Byte).length < controlMsgBufLen from short)
  generalize List.replicate (controlMsgBufLen - 1 - (0x20 :: text : List Byte).length) (0 : Byte)
    = tail at buf_eq
  obtain ⟨buf, argv, split, strings⟩ := @strsplit_ended [0x20] text tail words
    (fun c mem => List.mem_singleton.mp mem) starts (.spaced spaced)
  change strsplit (0x20 :: text ++ 0 :: tail) controlArgsMax = _ at split
  rw [splitMessage, buf_eq, split]
  by_cases many : controlArgsMax ≤ words.length
  · rw [if_pos many, if_pos many]
    rfl
  · rw [List.take_of_length_le (by omega)] at strings
    rw [if_neg many, if_neg many]
    simp only [bind, Except.bind, strings, pure, Except.pure]

-----------------------------------------------------------------------------------------
-- Joining
-----------------------------------------------------------------------------------------

/-- Each argument with a blank in front. -/
def joined (args : List (List Byte)) : List Byte := args.flatMap fun arg => 0x20 :: arg

/-- Joining quits behind the buffer's size, and cuts a line of just that size. -/
theorem joinArgs_eq {cmdstr : List Byte} {args : List (List Byte)}
    (short : cmdstr.length < controlMsgBufLen) (nonempty : ∀ arg ∈ args, arg ≠ [])
    : joinArgs cmdstr args
      = if (cmdstr ++ joined args).length ≤ controlMsgBufLen then
          some ((cmdstr ++ joined args).take (controlMsgBufLen - 1))
        else
          none := by
  induction args generalizing cmdstr with
  | nil =>
      have whole : (cmdstr ++ joined []).take (controlMsgBufLen - 1) = cmdstr := by
        simp only [joined, List.flatMap_nil, List.append_nil]
        exact List.take_of_length_le (by omega)
      rw [whole, joinArgs, if_pos (by simp [joined]; omega)]
  | cons arg rest ih =>
      have nonempty' : ∀ arg ∈ rest, arg ≠ [] := fun other mem => nonempty other (by simp [mem])
      have whole : cmdstr ++ joined (arg :: rest) = cmdstr ++ [0x20] ++ arg ++ joined rest := by
        simp [joined]
      rw [whole]
      change (if (cmdstr ++ [0x20] ++ arg).length > controlMsgBufLen then
          none
        else
          joinArgs ((cmdstr ++ [0x20] ++ arg).take (controlMsgBufLen - 1)) rest) = _
      generalize cmdstr ++ [0x20] ++ arg = line
      by_cases long : line.length > controlMsgBufLen
      · rw [if_pos long, if_neg (by rw [List.length_append]; omega)]
      · rw [if_neg long, ih (by rw [List.length_take]; omega) nonempty']
        by_cases fits : line.length ≤ controlMsgBufLen - 1
        · rw [List.take_of_length_le fits]
        · -- the line fills the buffer, so that its last byte was cut
          have full : line.length = controlMsgBufLen := by omega
          cases rest with
          | nil =>
              simp only [joined, List.flatMap_nil, List.append_nil]
              rw [if_pos (by rw [List.length_take]; omega), if_pos (by omega), List.take_take,
                Nat.min_self]
          | cons next rest =>
              have more : 2 ≤ (joined (next :: rest)).length := by
                have := List.length_pos_iff.mpr (nonempty' next (by simp))
                simp only [joined, List.flatMap_cons, List.length_append, List.length_cons]
                omega
              rw [if_neg (by simp only [List.length_append, List.length_take]; omega),
                if_neg (by rw [List.length_append]; omega)]

/-- A printable argument without blanks. -/
def Plain (arg : List Byte) : Prop := arg ≠ [] ∧ ∀ c ∈ arg, 0x20 < c ∧ c < 0x7f

instance (arg : List Byte) : Decidable (Plain arg) :=
  inferInstanceAs (Decidable (arg ≠ [] ∧ ∀ c ∈ arg, 0x20 < c ∧ c < 0x7f))

theorem Plain.isWord {arg : List Byte} (h : Plain arg) : ∀ c ∈ arg, isWord c = true := by
  intro c mem
  obtain ⟨low, high⟩ := h.2 c mem
  have low' : 0x20 < c.toNat := low
  have high' : c.toNat < 0x7f := high
  have signed : c.toInt = c.toNat := BitVec.toInt_eq_toNat_of_lt (by omega)
  rw [Control.isWord, signed]
  exact decide_eq_true (by omega)

/-- Joined arguments are spaced words behind a blank. -/
theorem spaced_joined {first : List Byte} {rest : List (List Byte)} {after : List Byte}
    (plain : ∀ arg ∈ first :: rest, Plain arg) (blank : ∀ c ∈ after, c = 0x20)
    : Spaced (first ++ (joined rest ++ after)) (first :: rest) := by
  induction rest generalizing first with
  | nil =>
      have text : first ++ (joined [] ++ after) = first ++ after ++ [] := by simp [joined]
      rw [text]
      refine .cons (plain first (by simp)).1 (plain first (by simp)).isWord (fun c mem => ?_)
        (fun _ => rfl) .nil
      rw [blank c mem]
      decide
  | cons next rest ih =>
      have text : first ++ (joined (next :: rest) ++ after)
          = first ++ [0x20] ++ (next ++ (joined rest ++ after)) := by simp [joined]
      rw [text]
      refine .cons (plain first (by simp)).1 (plain first (by simp)).isWord (fun c mem => ?_)
        nofun (ih (fun arg mem => plain arg (List.mem_cons_of_mem _ mem)))
      rw [List.mem_singleton.mp mem]
      decide

/-- Joined arguments that leave room in the buffer are split into the arguments, if there are
few enough.
-/
theorem splitMessage_joined {args : List (List Byte)} {after : List Byte} (given : args ≠ [])
    (plain : ∀ arg ∈ args, Plain arg) (blank : ∀ c ∈ after, c = 0x20)
    (short : (joined args ++ after).length < controlMsgBufLen)
    : splitMessage (joined args ++ after)
      = .ok (if controlArgsMax ≤ args.length then none else some args) := by
  obtain ⟨first, rest, rfl⟩ := List.exists_cons_of_ne_nil given
  have line : joined (first :: rest) ++ after = 0x20 :: (first ++ (joined rest ++ after)) := by
    simp [joined]
  rw [line] at short ⊢
  exact splitMessage_spaced (spaced_joined plain blank) (by simpa using short)

-----------------------------------------------------------------------------------------
-- From lixyctl to lixyd
-----------------------------------------------------------------------------------------

/-- lixyctl refuses the arguments, or lixyd finds them too many, or splits the line into just
them.
-/
def Agrees (args : List (List Byte)) : Prop :=
  lixyctl args = .tooLong
    ∨ ∃ cmdstr, lixyctl args = .sends cmdstr
        ∧ (splitMessage cmdstr = .ok none ∧ controlArgsMax ≤ args.length
          ∨ splitMessage cmdstr = .ok (some args))

/-- The length of a command line: a blank and an argument for each. -/
def lineLength (args : List (List Byte)) : Nat := (args.map fun arg => arg.length + 1).sum

theorem joined_length (args : List (List Byte)) : (joined args).length = lineLength args := by
  simp [joined, lineLength, List.length_flatMap]

/-- The last argument of a line that fills the buffer loses its last byte: what lixyd splits
it into then.
-/
theorem splitMessage_cut {init : List (List Byte)} {short : List Byte} {c : Byte}
    (plain : ∀ arg ∈ init ++ [short ++ [c]], Plain arg)
    (full : lineLength (init ++ [short ++ [c]]) = controlMsgBufLen)
    : splitMessage ((joined (init ++ [short ++ [c]])).take (controlMsgBufLen - 1))
      = .ok (if controlArgsMax ≤ (if short = [] then init else init ++ [short]).length then none
        else some (if short = [] then init else init ++ [short])) := by
  have line : joined (init ++ [short ++ [c]]) = joined init ++ (0x20 :: short) ++ [c] := by
    simp [joined]
  have length : (joined init ++ 0x20 :: short).length = controlMsgBufLen - 1 := by
    have whole : (joined init ++ (0x20 :: short) ++ [c]).length = controlMsgBufLen := by
      rw [← line, joined_length, full]
    rw [List.length_append, List.length_singleton] at whole
    omega
  have room : (joined init ++ 0x20 :: short).length < controlMsgBufLen := by
    rw [length]
    decide
  rw [line, List.take_left' length]
  by_cases empty : short = []
  · subst empty
    have more : init ≠ [] := by
      rintro rfl
      cases length
    simp only [if_true]
    exact splitMessage_joined more (fun arg mem => plain arg (List.mem_append_left _ mem))
      (fun b mem => List.mem_singleton.mp mem) room
  · have joined_eq : joined init ++ 0x20 :: short = joined (init ++ [short]) ++ [] := by
      simp [joined]
    have plain' : ∀ arg ∈ init ++ [short], Plain arg := by
      intro arg mem
      rcases List.mem_append.mp mem with mem | mem
      · exact plain arg (List.mem_append_left _ mem)
      · obtain rfl := List.mem_singleton.mp mem
        exact ⟨empty, fun b inside =>
          (plain (arg ++ [c]) (by simp)).2 b (List.mem_append_left _ inside)⟩
    rw [joined_eq] at room ⊢
    rw [if_neg empty]
    exact splitMessage_joined (by simp) plain' nofun room

/-- Arguments other than those that ask for help are joined. -/
theorem lixyctl_eq {args : List (List Byte)} (given : args ≠ [])
    (noHelp : args.head? ≠ some (ascii "-h") ∧ args.head? ≠ some (ascii "--help"))
    (nonempty : ∀ arg ∈ args, arg ≠ [])
    : lixyctl args
      = if lineLength args ≤ controlMsgBufLen then
          .sends ((joined args).take (controlMsgBufLen - 1))
        else
          .tooLong := by
  have notUsage : args.head? ∉ [none, some (ascii "-h"), some (ascii "--help")] := by
    obtain ⟨first, rest, rfl⟩ := List.exists_cons_of_ne_nil given
    simpa using noHelp
  have line := joinArgs_eq (show ([] : List Byte).length < controlMsgBufLen by decide) nonempty
  rw [List.nil_append, joined_length] at line
  rw [lixyctl, if_neg notUsage, line]
  by_cases fits : lineLength args ≤ controlMsgBufLen
  · rw [if_pos fits, if_pos fits]
  · rw [if_neg fits, if_neg fits]

/-- A line that fills the buffer is only agreed on where too many words are left. -/
theorem agrees_full_iff {init : List (List Byte)} {short : List Byte} {c : Byte}
    (plain : ∀ arg ∈ init ++ [short ++ [c]], Plain arg)
    (noHelp : (init ++ [short ++ [c]]).head? ≠ some (ascii "-h")
      ∧ (init ++ [short ++ [c]]).head? ≠ some (ascii "--help"))
    (full : lineLength (init ++ [short ++ [c]]) = controlMsgBufLen)
    : Agrees (init ++ [short ++ [c]])
      ↔ controlArgsMax ≤ (if short = [] then init else init ++ [short]).length := by
  have sends := lixyctl_eq (by simp) noHelp (fun arg mem => (plain arg mem).1)
  rw [if_pos (Nat.le_of_eq full)] at sends
  have other : (if short = [] then init else init ++ [short]) ≠ init ++ [short ++ [c]] := by
    intro same
    have lengths := congrArg (fun words => (joined words).length) same
    split at lengths <;> simp [joined] at lengths
  simp only [Agrees, sends, reduceCtorEq, false_or, Lixyctl.sends.injEq, exists_eq_left',
    splitMessage_cut plain full]
  by_cases many : controlArgsMax ≤ (if short = [] then init else init ++ [short]).length
  · rw [if_pos many]
    refine iff_of_true (.inl ⟨rfl, ?_⟩) many
    split at many
    · rw [List.length_append]
      omega
    · simpa using many
  · rw [if_neg many]
    refine iff_of_false ?_ many
    rintro (⟨cut, _⟩ | whole)
    · cases cut
    · exact other (Option.some.inj (Except.ok.inj whole))

/-- lixyctl and lixyd agree on the command unless the line is just as long as the buffer and
lixyd takes what is left of it.
-/
theorem agrees_iff {args : List (List Byte)} (plain : ∀ arg ∈ args, Plain arg) (given : args ≠ [])
    (noHelp : args.head? ≠ some (ascii "-h") ∧ args.head? ≠ some (ascii "--help"))
    : Agrees args
      ↔ lineLength args ≠ controlMsgBufLen
        ∨ controlArgsMax < args.length
        ∨ args.length = controlArgsMax ∧ ∀ last, args.getLast? = some last → 2 ≤ last.length := by
  have nonempty : ∀ arg ∈ args, arg ≠ [] := fun arg mem => (plain arg mem).1
  have sends := lixyctl_eq given noHelp nonempty
  rcases Nat.lt_trichotomy (lineLength args) controlMsgBufLen with short | full | long
  · -- the line is split as it was joined
    have whole : (joined args).take (controlMsgBufLen - 1) = joined args ++ [] := by
      rw [List.append_nil]
      exact List.take_of_length_le (by rw [joined_length]; omega)
    rw [if_pos (Nat.le_of_lt short), whole] at sends
    have words := @splitMessage_joined args [] given plain nofun
      (by rwa [List.append_nil, joined_length])
    refine iff_of_true (.inr ⟨_, sends, ?_⟩) (.inl (by omega))
    by_cases many : controlArgsMax ≤ args.length
    · rw [if_pos many] at words
      exact .inl ⟨words, many⟩
    · rw [if_neg many] at words
      exact .inr words
  · obtain ⟨init, last, rfl⟩ := List.eq_nil_or_concat' args |>.resolve_left given
    obtain ⟨short, c, rfl⟩ := List.eq_nil_or_concat' last |>.resolve_left (nonempty last (by simp))
    have last : (init ++ [short ++ [c]]).getLast? = some (short ++ [c]) := by simp
    rw [agrees_full_iff plain noHelp full]
    simp only [full, ne_eq, not_true_eq_false, false_or, last, Option.some.injEq, forall_eq']
    split
    · next empty =>
        simp only [empty, List.length_append, List.length_cons, List.length_nil]
        omega
    · next more =>
        have := List.length_pos_iff.mpr more
        simp only [List.length_append, List.length_cons, List.length_nil]
        omega
  · rw [if_neg (by omega)] at sends
    exact iff_of_true (.inl sends) (.inl (by omega))

/-- Witness: `lixyctl show locator`. -/
theorem showLocator_agreed
    : (∀ arg ∈ [ascii "show", ascii "locator"], Plain arg)
      ∧ Agrees [ascii "show", ascii "locator"] := by
  have plain : ∀ arg ∈ [ascii "show", ascii "locator"], Plain arg := by decide
  exact ⟨plain, (agrees_iff plain nofun (by decide)).mpr (.inl (by decide))⟩

/-- The letter a, 1018 times. -/
@[irreducible]
def longName : List Byte := List.replicate 1018 0x61

theorem longName_length : longName.length = 1018 := by
  rw [longName]
  exact List.length_replicate

theorem longName_letters {c : Byte} (mem : c ∈ longName) : c = 0x61 := by
  rw [longName] at mem
  exact List.eq_of_mem_replicate mem

theorem longName_plain
    : ∀ arg ∈ [ascii "eid"] ++ [longName ++ [0x61]], Plain arg := by
  intro arg mem
  rcases List.mem_append.mp mem with mem | mem
  · obtain rfl := List.mem_singleton.mp mem
    exact ⟨by decide, by decide⟩
  · obtain rfl := List.mem_singleton.mp mem
    refine ⟨List.append_ne_nil_of_right_ne_nil _ (List.cons_ne_nil _ _), fun c inside => ?_⟩
    have letter : c = 0x61 := (List.mem_append.mp inside).elim longName_letters
      List.mem_singleton.mp
    rw [letter]
    decide

/-- lixyd gets the name of an EID that fills the line without its last letter. -/
theorem longName_cut
    : lixyctl [ascii "eid", longName ++ [0x61]]
        = .sends ((joined [ascii "eid", longName ++ [0x61]]).take (controlMsgBufLen - 1))
      ∧ splitMessage ((joined [ascii "eid", longName ++ [0x61]]).take (controlMsgBufLen - 1))
        = .ok (some [ascii "eid", longName])
      ∧ ¬ Agrees [ascii "eid", longName ++ [0x61]] := by
  have full : lineLength ([ascii "eid"] ++ [longName ++ [0x61]]) = controlMsgBufLen := by
    have eid : (ascii "eid").length = 3 := by decide
    simp only [lineLength, List.singleton_append, List.map_cons, List.map_nil, List.sum_cons,
      List.sum_nil, List.length_append, longName_length, eid, List.length_singleton]
    rfl
  have noHelp : ([ascii "eid"] ++ [longName ++ [0x61]]).head? ≠ some (ascii "-h")
      ∧ ([ascii "eid"] ++ [longName ++ [0x61]]).head? ≠ some (ascii "--help") := by
    rw [List.singleton_append, List.head?_cons]
    decide
  have sends := @lixyctl_eq ([ascii "eid"] ++ [longName ++ [0x61]]) (List.cons_ne_nil _ _) noHelp
    (fun arg mem => (longName_plain arg mem).1)
  have more : longName ≠ [] := List.ne_nil_of_length_pos (by rw [longName_length]; decide)
  have words := splitMessage_cut longName_plain full
  have agrees := agrees_full_iff longName_plain noHelp full
  rw [if_pos (Nat.le_of_eq full)] at sends
  rw [if_neg more] at words agrees
  refine ⟨sends, words, fun h => ?_⟩
  exact absurd (agrees.mp h) (by decide)

end Lixy.Control
