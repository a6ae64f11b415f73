import Lixy.Foundation.OnesComplement
import Lixy.Messages.BufferBounds

/-! The checksum of map.c: what its two folds make of a sum, and that a header verifies once the
checksum is stored in it. The inner IPv4 header of a Map-Request is one.
-/

namespace Lixy

open ByteStrings
open OnesComplement (onesSum words lowFirst)

/-- The one's-complement sum of the words has all its bits set, as a little-endian machine reads
them and in network order.
-/
def Verifies (bs : List Byte) : Prop :=
  onesSum 65536 (words lowFirst bs) = 0xffff ∧ onesSum 65536 (words be16 bs) = 0xffff

-----------------------------------------------------------------------------------------
-- Sums of words
-----------------------------------------------------------------------------------------

/-- A sum over words behind whole words, by the recursion of the sum. -/
theorem sumWords_append {front back : List Byte} (even : front.length % 2 = 0)
    : sumWords (front ++ back) = sumWords front + sumWords back := by
  induction front using sumWords.induct with
  | case1 lo hi rest ih =>
      have rest_even : rest.length % 2 = 0 := by
        simp only [List.length_cons] at even
        omega
      simp only [List.cons_append, sumWords, ih rest_even]
      omega
  | case2 front short =>
      match front with
      | [] => simp [sumWords]
      | [_] => simp at even
      | lo :: hi :: rest => exact absurd rfl (short lo hi rest)

/-- Each word adds 65535 at most. -/
theorem sumWords_le (buf : List Byte) : sumWords buf ≤ buf.length / 2 * 65535 := by
  induction buf using sumWords.induct with
  | case1 lo hi rest ih =>
      have word : be16 hi lo ≤ 65535 := by
        have := hi.isLt
        have := lo.isLt
        simp only [be16]
        omega
      have length : (lo :: hi :: rest).length / 2 = rest.length / 2 + 1 := by
        simp only [List.length_cons]
        omega
      rw [sumWords, length]
      omega
  | case2 buf short => simp [sumWords]

/-- The accumulator of a buffer of up to 65536 words does not overflow. -/
theorem sumWords_lt {buf : List Byte} (short : buf.length ≤ 2 * 65536)
    : sumWords buf < 2 ^ 32 := by
  have le := sumWords_le buf
  have words : buf.length / 2 * 65535 ≤ 65536 * 65535 := Nat.mul_le_mul_right _ (by omega)
  omega

/-- The accumulator is the sum of the words. -/
theorem sumWords_eq (buf : List Byte) : sumWords buf = (words lowFirst buf).sum := by
  induction buf using sumWords.induct with
  | case1 lo hi rest ih => rw [sumWords, words, List.sum_cons, ih, lowFirst]
  | case2 buf short =>
      rw [sumWords, words]
      · rfl
      · exact short
      · exact short

/-- Words that add up to a multiple of 65535 verify, unless all are 0. -/
theorem verifies_of_sumWords {buf : List Byte} (complete : sumWords buf % 65535 = 0)
    (positive : 0 < sumWords buf)
    : Verifies buf := by
  rw [sumWords_eq] at complete positive
  have top := (OnesComplement.onesSum_eq_top_iff (by decide)
    (OnesComplement.words_lt OnesComplement.lowFirst_lt buf)).mpr ⟨complete, positive⟩
  exact ⟨top, OnesComplement.onesSum_swapped top⟩

-----------------------------------------------------------------------------------------
-- Folds
-----------------------------------------------------------------------------------------

section

variable {buf : List Byte}

/-- Two folds are enough: the halves of the sum are added, and a carry once more. -/
theorem chksum_eq {high low : Nat} (sum_eq : sumWords buf = high * 65536 + low)
    (high_lt : high < 65536) (low_lt : low < 65536)
    : chksum buf = 65535 - if high + low < 65536 then high + low else high + low - 65535 := by
  have fits : sumWords buf < 2 ^ 32 := by omega
  have high_eq : sumWords buf / 65536 = high := by omega
  have low_eq : sumWords buf % 65536 = low := by omega
  simp only [chksum, Nat.mod_eq_of_lt fits, high_eq, low_eq]
  split
  · next whole =>
      have carry : (high + low) / 65536 = 0 := Nat.div_eq_of_lt whole
      rw [carry, Nat.add_zero]
      omega
  · next past =>
      have carry : (high + low) / 65536 = 1 := by omega
      rw [carry]
      omega

/-- The halves of a sum that does not overflow. -/
theorem sumWords_halves (fits : sumWords buf < 2 ^ 32)
    : ∃ high low, sumWords buf = high * 65536 + low ∧ high < 65536 ∧ low < 65536 :=
  ⟨sumWords buf / 65536, sumWords buf % 65536, by omega, by omega, by omega⟩

/-- The checksum completes the sum to a multiple of 65535. -/
theorem chksum_completes (fits : sumWords buf < 2 ^ 32)
    : (sumWords buf + chksum buf) % 65535 = 0 ∧ 0 < sumWords buf + chksum buf
      ∧ chksum buf < 65536 := by
  obtain ⟨high, low, sum_eq, high_lt, low_lt⟩ := sumWords_halves fits
  rw [chksum_eq sum_eq high_lt low_lt, sum_eq]
  split <;> omega

/-- The checksum of a sum that is complete is 0. -/
theorem chksum_eq_zero (fits : sumWords buf < 2 ^ 32) (complete : sumWords buf % 65535 = 0)
    (positive : 0 < sumWords buf)
    : chksum buf = 0 := by
  obtain ⟨high, low, sum_eq, high_lt, low_lt⟩ := sumWords_halves fits
  rw [chksum_eq sum_eq high_lt low_lt]
  split <;> omega

/-- Over a word of zeros, the checksum completes the sum and makes the checksum 0. -/
theorem chksum_stored {front back : List Byte} (even : front.length % 2 = 0)
    (short : (front ++ [0, 0] ++ back).length ≤ 2 * 65536)
    : chksum (front ++ (put16 (chksum (front ++ [0, 0] ++ back))).reverse ++ back) = 0
      ∧ Verifies (front ++ (put16 (chksum (front ++ [0, 0] ++ back))).reverse ++ back) := by
  obtain ⟨complete, positive, word⟩ := chksum_completes (sumWords_lt short)
  generalize chksum (front ++ [0, 0] ++ back) = sum at complete positive word ⊢
  have sized : (front ++ (put16 sum).reverse ++ back).length ≤ 2 * 65536 := by
    simp only [List.length_append, List.length_reverse, put16_length, List.length_cons,
      List.length_nil] at short ⊢
    omega
  -- the sum with the word is the sum without it and the word
  have added : sumWords (front ++ (put16 sum).reverse ++ back)
      = sumWords (front ++ [0, 0] ++ back) + sum := by
    have stored : sumWords ((put16 sum).reverse ++ back) = sum + sumWords back :=
      congrArg (· + sumWords back) (be16_put16 word)
    have zero : sumWords ([0, 0] ++ back) = sumWords back := Nat.zero_add _
    rw [List.append_assoc, List.append_assoc, sumWords_append even, sumWords_append even, stored,
      zero]
    omega
  rw [← added] at complete positive
  exact ⟨chksum_eq_zero (sumWords_lt sized) complete positive,
    verifies_of_sumWords complete positive⟩

end

-----------------------------------------------------------------------------------------
-- The inner header of a Map-Request
-----------------------------------------------------------------------------------------

section

variable {buf out : List Byte} {pfx : Prefix} {off : Nat}

/-- Two bytes that lie one behind the other. -/
theorem liesAt_pair {a b : Byte} (first : buf[off]? = some a) (second : buf[off + 1]? = some b)
    : LiesAt buf off [a, b] := by
  obtain ⟨inside, rfl⟩ := List.getElem?_eq_some_iff.mp first
  obtain ⟨inside', rfl⟩ := List.getElem?_eq_some_iff.mp second
  refine ⟨buf.take off, buf.drop (off + 2), ?_, List.length_take_of_le (Nat.le_of_lt inside)⟩
  rw [List.append_assoc, List.cons_append, List.cons_append, List.nil_append,
    List.cons_getElem_drop_succ, List.cons_getElem_drop_succ, List.take_append_drop]

/-- The lengths are set first: the header verifies if its checksum was zero before. -/
theorem setLengths_verifies {pktlen : Nat} (ipv4 : pfx.family = afInet)
    (zero : LiesAt buf (sizeofLispControl + 10) [0, 0])
    (done : setLengths buf pktlen pfx = .ok out)
    : ∃ ip, rdBytes out sizeofLispControl sizeofIp = .ok ip ∧ chksum ip.toList = 0
        ∧ Verifies ip.toList := by
  rw [setLengths, if_pos ipv4] at done
  obtain ⟨buf₁, ipLen, done⟩ := bind_eq_ok.mp done
  obtain ⟨buf₂, uLen, done⟩ := bind_eq_ok.mp done
  obtain ⟨ip, read, sum⟩ := bind_eq_ok.mp done
  have kept (i : Nat) (lt : i < 2)
      : buf₂[sizeofLispControl + 10 + i]? = buf[sizeofLispControl + 10 + i]? := by
    simp only [sizeofLispControl, sizeofIp] at ipLen uLen ⊢
    rw [wr_frame uLen (.inl (by omega)), wr_frame ipLen (.inr (by rw [put16_length]; omega))]
  have lies : LiesAt buf₂ sizeofLispControl ip.toList := liesAt_of_slice (rdBytes_eq_ok.mp read)
  have zeros (i : Nat) (lt : i < 2) : ip.toList[10 + i]? = some 0 := by
    rw [← lies.getElem? (by rw [List.Vector.toList_length]; simp only [sizeofIp]; omega),
      ← Nat.add_assoc, kept i lt, zero.getElem? lt]
    rcases Nat.lt_succ_iff_lt_or_eq.mp lt with first | rfl
    · obtain rfl := Nat.lt_one_iff.mp first
      rfl
    · rfl
  obtain ⟨before, behind, ip_eq, before_length⟩ :=
    liesAt_pair (zeros 0 (by decide)) (zeros 1 (by decide))
  obtain ⟨front, back, rfl, front_length⟩ := lies
  have sized := ip.toList_length
  rw [ip_eq] at sum sized
  have verifies := @chksum_stored before behind (by rw [before_length])
    (by rw [sized]; decide)
  have two : (put16 (chksum (before ++ [0, 0] ++ behind))).reverse.length = 2 := rfl
  generalize (put16 (chksum (before ++ [0, 0] ++ behind))).reverse = stored at sum verifies two
  have start : (front ++ before).length = sizeofLispControl + 10 := by
    rw [List.length_append, front_length, before_length]
  have written := @overwrite_middle (front ++ before) [0, 0] (behind ++ back) stored
    (sizeofLispControl + 10) start two
  have parts (middle : List Byte) : front ++ (before ++ middle ++ behind) ++ back
      = front ++ before ++ middle ++ (behind ++ back) := by simp only [List.append_assoc]
  rw [parts, wr, written] at sum
  obtain rfl := Except.ok.inj sum
  have stored_length : (before ++ stored ++ behind).length = sizeofIp := by
    simp only [List.length_append, two, List.length_cons, List.length_nil] at sized ⊢
    exact sized
  have lies : LiesAt (front ++ before ++ stored ++ (behind ++ back)) sizeofLispControl
      (before ++ stored ++ behind) := ⟨front, back, (parts stored).symm, front_length⟩
  exact ⟨_, rdBytes_eq_ok.mpr (lies.slice stored_length), verifies⟩

/-- Up to where the lengths are set, nothing is written over the zeros of the checksum. -/
theorem setLispMapRequest_sumZero {locTuple : ListT Locator} {nonce : Bytes 8} {len : Nat}
    (ipv4 : pfx.family = afInet)
    (done : setLispMapRequest buf locTuple pfx nonce = .ok (some (out, len)))
    : ∃ buf' pktlen, LiesAt buf' (sizeofLispControl + 10) [0, 0]
        ∧ setLengths buf' pktlen pfx = .ok out := by
  obtain ⟨addr, known⟩ : ∃ addr, pfx.addr = some addr :=
    ⟨_, by rw [Prefix.addr, familyAddr, if_pos ipv4]⟩
  rw [setLispMapRequest_writes known] at done
  obtain ⟨buf₁, control, done⟩ := bind_eq_ok.mp done
  obtain ⟨buf₂, header, done⟩ := bind_eq_ok.mp done
  obtain ⟨buf₃, udp, done⟩ := bind_eq_ok.mp done
  obtain ⟨buf₄, request, done⟩ := bind_eq_ok.mp done
  obtain ⟨buf₅, source, done⟩ := bind_eq_ok.mp done
  obtain ⟨encoded, rlocs, done⟩ := bind_eq_ok.mp done
  have inner : sizeofInner pfx.family = sizeofIp := if_pos ipv4
  cases encoded with
  | none => cases done
  | some result =>
      obtain ⟨buf₆, pktlen⟩ := result
      obtain ⟨⟨buf₇, pktlen₇⟩, record, done⟩ := bind_eq_ok.mp done
      obtain ⟨buf₈, lengths, done⟩ := bind_eq_ok.mp done
      cases done
      simp only [inner, sizeofLispControl, sizeofIp, sizeofUdphdr, sizeofLispMapRequest]
        at header udp request source rlocs
      have kept (i : Nat) (lt : i < 2)
          : buf₇[sizeofLispControl + 10 + i]? = buf₂[sizeofLispControl + 10 + i]? := by
        simp only [sizeofLispControl]
        obtain ⟨rlocs_kept, longer⟩ := @setItrRlocs_frame _ _ _ _ _ _ (4 + 10 + i) rlocs
          (.inl (by omega)) (by omega)
        rw [setRequestRecord_frame record (by omega), rlocs_kept, wr_frame source (.inl (by omega)),
          wr_frame request (.inl (by omega)), wr_frame udp (.inl (by omega))]
      have zeros (i : Nat) (lt : i < 2) : buf₇[sizeofLispControl + 10 + i]? = some 0 := by
        obtain ⟨_, _, lies⟩ := wr_ok header
        rw [innerHeader, if_pos ipv4] at lies
        rw [kept i lt, Nat.add_assoc, lies.getElem? (by simp; omega)]
        rcases Nat.lt_succ_iff_lt_or_eq.mp lt with first | rfl
        · obtain rfl := Nat.lt_one_iff.mp first
          rfl
        · rfl
      exact ⟨buf₇, _, liesAt_pair (zeros 0 (by decide)) (zeros 1 (by decide)), lengths⟩

end

-----------------------------------------------------------------------------------------
-- Every header verifies
-----------------------------------------------------------------------------------------

end Lixy
