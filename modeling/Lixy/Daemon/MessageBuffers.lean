import Lixy.Daemon.DataPath
import Lixy.Daemon.ValidEvents

/-! The buffer of `lisp_map_message_thread`, which is one for all datagrams. A datagram that is
read inside has the effect that it has alone; a datagram that is cut short is read on in what the
one before it left.
-/

namespace Lixy

open ByteStrings
open EventRuns (run)

/-- One round of `lisp_map_message_thread`, for the datagram that `recv` returns or its failure.
-/
def messageRound (thread : Bytes lispMsgBufLen × Lisp) (received : Option (List Byte))
    : Except Fault (Bytes lispMsgBufLen × Lisp) := do
  match received with
  | none => return thread
  | some datagram =>
      let buf := readInto thread.1 datagram
      let lisp ← lispMapMessageThread (min datagram.length lispMsgBufLen) buf.toList thread.2
      return (buf, lisp)

/-- The round as it would be if there were nothing behind a datagram: a read there is a fault. -/
def messageAlone (lisp : Lisp) (received : Option (List Byte)) : Except Fault Lisp :=
  match received with
  | none => .ok lisp
  | some datagram =>
      lispMapMessageThread (min datagram.length lispMsgBufLen) (datagram.take lispMsgBufLen) lisp

section

variable {buf : Bytes lispMsgBufLen} {lisp next : Lisp} {received : Option (List Byte)}

/-- What a datagram does alone, it does over whatever the buffer held. -/
theorem messageRound_of_alone (done : messageAlone lisp received = .ok next)
    : ∃ after, messageRound (buf, lisp) received = .ok after ∧ next = after.2 := by
  cases received with
  | none =>
      obtain rfl := Except.ok.inj done
      exact ⟨(buf, lisp), rfl, rfl⟩
  | some datagram =>
      refine ⟨(readInto buf datagram, next), ?_, rfl⟩
      have same : lispMapMessageThread (min datagram.length lispMsgBufLen)
          (readInto buf datagram).toList lisp = .ok next := by
        rw [messageAlone, lispMapMessageThread] at done
        rw [lispMapMessageThread, readInto_toList]
        split at done
        · next short => rw [if_pos short, done]
        · next long =>
            rw [if_neg long]
            exact (confined_processLispMapMessage lisp).eq_ok done _
      simp only [messageRound, same]
      rfl

/-- Receiving the start of what is there changes nothing. -/
theorem readInto_take {n : Nat} (buf : Bytes n) (packet : List Byte) (k : Nat)
    : readInto (readInto buf packet) (packet.take k) = readInto buf packet := by
  refine List.Vector.eq _ _ ?_
  rw [readInto_toList, readInto_toList, List.take_take, Nat.min_comm, ← List.take_take,
    overlay_take]

/-- In the round behind a datagram, any start of it that is long enough acts as the datagram. -/
theorem messageRound_take {thread after : Bytes lispMsgBufLen × Lisp} {datagram : List Byte}
    {k : Nat} (long : sizeofIp + sizeofLispControl ≤ k)
    (done : messageRound thread (some datagram) = .ok after)
    : messageRound after (some (datagram.take k)) = messageRound after (some datagram) := by
  obtain ⟨lisp, _, done⟩ := bind_eq_ok.mp done
  obtain rfl := pure_eq_ok.mp done
  have again := readInto_take thread.1 datagram datagram.length
  rw [List.take_length] at again
  have counts : min (datagram.take k).length lispMsgBufLen < sizeofIp + sizeofLispControl
      ↔ min datagram.length lispMsgBufLen < sizeofIp + sizeofLispControl := by
    rw [List.length_take]
    omega
  simp only [messageRound, readInto_take, again, lispMapMessageThread, counts]

/-- So it does at the end of any run. -/
theorem run_take {thread : Bytes lispMsgBufLen × Lisp} {received : List (Option (List Byte))}
    {datagram : List Byte} {k : Nat} (long : sizeofIp + sizeofLispControl ≤ k)
    : run messageRound thread (received ++ [some datagram, some (datagram.take k)])
      = run messageRound thread (received ++ [some datagram, some datagram]) := by
  induction received generalizing thread with
  | nil =>
      cases done : messageRound thread (some datagram) with
      | error fault => simp only [List.nil_append, run, done]
      | ok after => simp only [List.nil_append, run, done, messageRound_take long done]
  | cons first rest ih =>
      cases done : messageRound thread first with
      | error fault => simp only [List.cons_append, run, done]
      | ok after => simp only [List.cons_append, run, done, ih]

end

/-- Over any buffer, datagrams that are read inside have the effects that they have alone, one
after the other; and right behind a datagram, each start of it that is not too short to be looked
at has the effect of the whole datagram again.
-/
theorem message_buffer (buf : Bytes lispMsgBufLen) (lisp : Lisp)
    (received : List (Option (List Byte)))
    : (∀ final, run messageAlone lisp received = .ok final
        → ∃ after, run messageRound (buf, lisp) received = .ok after ∧ final = after.2)
      ∧ ∀ datagram k, sizeofIp + sizeofLispControl ≤ k
        → run messageRound (buf, lisp) (received ++ [some datagram, some (datagram.take k)])
          = run messageRound (buf, lisp) (received ++ [some datagram, some datagram]) := by
  have follows (lisp : Lisp) (thread : Bytes lispMsgBufLen × Lisp)
      (received : Option (List Byte)) (next : Lisp) (same : lisp = thread.2)
      (done : messageAlone lisp received = .ok next)
      : ∃ after, messageRound thread received = .ok after ∧ next = after.2 := by
    subst same
    exact messageRound_of_alone done
  exact ⟨fun _ done => EventRuns.run_follows follows rfl done, fun _ _ long => run_take long⟩

set_option maxRecDepth 4000 in
/-- A reply for 10.0.0.0/8 and the first 24 bytes of it, over any buffer. -/
theorem tenReply_twice
    : ∃ after once, messageAlone Lisp.start (some tenReply) = .ok once
        ∧ run messageRound (zeros lispMsgBufLen, Lisp.start) [some tenReply] = .ok after
        ∧ once = after.2
        ∧ run messageRound (zeros lispMsgBufLen, Lisp.start)
            [some tenReply, some (tenReply.take 24)]
          = run messageRound (zeros lispMsgBufLen, Lisp.start) [some tenReply, some tenReply] := by
  obtain ⟨once, alone⟩ : ∃ once, messageAlone Lisp.start (some tenReply) = .ok once := ⟨_, rfl⟩
  obtain ⟨same, _⟩ := message_buffer (zeros lispMsgBufLen) Lisp.start [some tenReply]
  obtain ⟨_, again⟩ := message_buffer (zeros lispMsgBufLen) Lisp.start []
  obtain ⟨after, done, effect⟩ := same once (EventRuns.run_cons_eq_ok.mpr ⟨once, alone, rfl⟩)
  exact ⟨after, once, alone, done, effect, again tenReply 24 (by decide)⟩

end Lixy
