import Mathlib.Data.Vector.Basic

/-! Byte strings as memory: bit numbering from the most significant bit, big-endian
numbers, and bounds-checked reads and overwrites of a fixed region.
-/

namespace ByteStrings

abbrev Byte := BitVec 8

instance : LawfulBEq Byte := inferInstance

/-- A byte string of a fixed length. -/
abbrev Bytes (n : Nat) := List.Vector Byte n

/-- The all-zero byte string. -/
def zeros (n : Nat) : Bytes n := List.Vector.replicate n 0

@[simp]
theorem zeros_toList (n : Nat) : (zeros n).toList = List.replicate n 0 := rfl

-----------------------------------------------------------------------------------------
-- Bits
-----------------------------------------------------------------------------------------

/-- Bit `i` of a byte string, counted from the most significant bit of the first byte;
bits past its end read as 0.
-/
def bitAt (a : List Byte) (i : Nat) : Bool :=
  (a.getD (i / 8) 0).getMsbD (i % 8)

/-- The first `n` bits of a byte string. -/
def bits (a : List Byte) (n : Nat) : List Bool :=
  (List.range n).map (bitAt a)

@[simp]
theorem bits_length (a : List Byte) (n : Nat) : (bits a n).length = n := by
  simp [bits]

@[simp]
theorem bits_zero (a : List Byte) : bits a 0 = [] := rfl

@[simp]
theorem bits_getElem (a : List Byte) (n i : Nat) (h : i < (bits a n).length)
    : (bits a n)[i] = bitAt a i := by
  simp [bits]

theorem bits_succ (a : List Byte) (n : Nat) : bits a (n + 1) = bits a n ++ [bitAt a n] := by
  simp [bits, List.range_succ]

/-- Taking leading bits of a byte string shortens its bit count. -/
theorem bits_take (a : List Byte) {m n : Nat} (le : m ≤ n) : (bits a n).take m = bits a m := by
  apply List.ext_getElem
  · simp [le]
  · intro i _ _
    simp

theorem bits_prefix_of_le (a : List Byte) {m n : Nat} (le : m ≤ n)
    : bits a m <+: bits a n := by
  rw [← bits_take a le]
  exact List.take_prefix m _

/-- Equal leading bits, stated position by position. -/
theorem bits_eq_iff {a b : List Byte} {n : Nat}
    : bits a n = bits b n ↔ ∀ i < n, bitAt a i = bitAt b i := by
  simp [bits, List.map_inj_left, List.mem_range]

/-- The leading bits of `a` cover those of `b` exactly when they agree on them. -/
theorem bits_prefix_iff {a b : List Byte} {m n : Nat}
    : bits a m <+: bits b n ↔ m ≤ n ∧ bits a m = bits b m := by
  constructor
  · intro h
    have le : m ≤ n := by simpa using h.length_le
    exact ⟨le, by rw [List.prefix_iff_eq_take.mp h, bits_length, bits_take b le]⟩
  · rintro ⟨le, eq⟩
    rw [eq]
    exact bits_prefix_of_le b le

/-- Bits inside the first part of an append are that part's bits. -/
theorem bitAt_append_left {a b : List Byte} {i : Nat} (h : i < 8 * a.length)
    : bitAt (a ++ b) i = bitAt a i := by
  have inside : i / 8 < a.length := by omega
  simp [bitAt, List.getD, List.getElem?_append_left inside]

theorem bits_append_left {a b : List Byte} {n : Nat} (h : n ≤ 8 * a.length)
    : bits (a ++ b) n = bits a n :=
  bits_eq_iff.mpr (fun _ hi => bitAt_append_left (by omega))

/-- Byte strings of one length that agree on all bits of a byte agree on that byte. -/
theorem getD_eq_of_bits {a b : List Byte} {k : Nat}
    (h : ∀ j < 8, bitAt a (k * 8 + j) = bitAt b (k * 8 + j))
    : a.getD k 0 = b.getD k 0 := by
  apply BitVec.eq_of_getMsbD_eq
  intro j hj
  have bit := h j hj
  rw [bitAt, bitAt, show (k * 8 + j) / 8 = k by omega, show (k * 8 + j) % 8 = j by omega] at bit
  exact bit

-----------------------------------------------------------------------------------------
-- Big-endian numbers
-----------------------------------------------------------------------------------------

/-- A 16-bit number in network byte order. -/
def be16 (hi lo : Byte) : Nat := hi.toNat * 256 + lo.toNat

/-- A 32-bit number in network byte order. -/
def be32 (b0 b1 b2 b3 : Byte) : BitVec 32 := b0 ++ b1 ++ b2 ++ b3

/-- The two bytes of a 16-bit number in network byte order. -/
def put16 (n : Nat) : List Byte := [BitVec.ofNat 8 (n / 256), BitVec.ofNat 8 n]

@[simp]
theorem put16_length (n : Nat) : (put16 n).length = 2 := rfl

/-- The four bytes of a 32-bit number in network byte order. -/
def put32 (n : Nat) : List Byte := put16 (n / 65536) ++ put16 n

@[simp]
theorem put32_length (n : Nat) : (put32 n).length = 4 := rfl

/-- Reading back a 16-bit number gives the number. -/
theorem be16_put16 {n : Nat} (h : n < 65536)
    : be16 (BitVec.ofNat 8 (n / 256)) (BitVec.ofNat 8 n) = n := by
  simp only [be16, BitVec.toNat_ofNat]
  omega

-----------------------------------------------------------------------------------------
-- Reading and overwriting a region
-----------------------------------------------------------------------------------------

/-- The `n` bytes at offset `off`, when the region reaches that far. -/
def slice (m : List Byte) (off n : Nat) : Option (Bytes n) :=
  if h : off + n ≤ m.length then
    some ⟨(m.drop off).take n, by simp; omega⟩
  else
    none

/-- A slice exists exactly when it lies inside the region. -/
theorem slice_isSome_iff {m : List Byte} {off n : Nat}
    : (slice m off n).isSome ↔ off + n ≤ m.length := by
  unfold slice
  split
  · next fits => exact ⟨fun _ => fits, fun _ => rfl⟩
  · next past => exact ⟨fun h => (by cases h), fun h => (past h).elim⟩

/-- Bytes inside the first part of an append are that part's bytes. -/
theorem slice_append_left {m rest : List Byte} {off n : Nat} (inside : off + n ≤ m.length)
    : slice (m ++ rest) off n = slice m off n := by
  have inside' : off + n ≤ (m ++ rest).length := by
    rw [List.length_append]
    omega
  rw [slice, slice, dif_pos inside, dif_pos inside']
  congr 1
  apply List.Vector.eq
  change ((m ++ rest).drop off).take n = (m.drop off).take n
  rw [List.drop_append_of_le_length (by omega),
    List.take_append_of_le_length (by rw [List.length_drop]; omega)]

/-- The bytes `bs` lie at offset `off` of the region. -/
def LiesAt (m : List Byte) (off : Nat) (bs : List Byte) : Prop :=
  ∃ front back, m = front ++ bs ++ back ∧ front.length = off

section

variable {m bs : List Byte} {off : Nat}

theorem LiesAt.le (h : LiesAt m off bs) : off + bs.length ≤ m.length := by
  obtain ⟨front, back, rfl, rfl⟩ := h
  simp only [List.length_append]
  omega

/-- The two parts of an append lie one behind the other. -/
theorem LiesAt.append {a b : List Byte} (h : LiesAt m off (a ++ b))
    : LiesAt m off a ∧ LiesAt m (off + a.length) b := by
  obtain ⟨front, back, rfl, rfl⟩ := h
  refine ⟨⟨front, b ++ back, by simp, rfl⟩, front ++ a, back, by simp, by simp⟩

/-- A byte of what lies there is the region's byte. -/
theorem LiesAt.getElem? (h : LiesAt m off bs) {i : Nat} (lt : i < bs.length)
    : m[off + i]? = bs[i]? := by
  obtain ⟨front, back, rfl, rfl⟩ := h
  rw [List.append_assoc, List.getElem?_append_right (by omega), Nat.add_sub_cancel_left,
    List.getElem?_append_left lt]

/-- The slice of that length is what lies there. -/
theorem LiesAt.slice {n : Nat} (h : LiesAt m off bs) (len : bs.length = n)
    : slice m off n = some ⟨bs, len⟩ := by
  have fits : off + n ≤ m.length := len ▸ h.le
  obtain ⟨front, back, rfl, rfl⟩ := h
  rw [ByteStrings.slice, dif_pos fits]
  congr 1
  apply List.Vector.eq
  change ((front ++ bs ++ back).drop front.length).take n = bs
  rw [List.append_assoc, List.drop_left' rfl, ← len, List.take_left' rfl]

end

/-- A slice lies where it was taken. -/
theorem liesAt_of_slice {m : List Byte} {off n : Nat} {bs : Bytes n} (h : slice m off n = some bs)
    : LiesAt m off bs.toList := by
  unfold slice at h
  split at h
  · next fits =>
      obtain rfl := Option.some.inj h
      refine ⟨m.take off, (m.drop off).drop n, ?_, List.length_take_of_le (by omega)⟩
      change m = m.take off ++ (m.drop off).take n ++ (m.drop off).drop n
      rw [List.append_assoc, List.take_append_drop, List.take_append_drop]
  · cases h

/-- Overwrite the bytes at offset `off` when the region reaches far enough. -/
def overwrite (m : List Byte) (off : Nat) (bs : List Byte) : Option (List Byte) :=
  if off + bs.length ≤ m.length then
    some (m.take off ++ bs ++ m.drop (off + bs.length))
  else
    none

/-- An overwrite succeeds exactly when it lies inside the region. -/
theorem overwrite_isSome_iff {m bs : List Byte} {off : Nat}
    : (overwrite m off bs).isSome ↔ off + bs.length ≤ m.length := by
  unfold overwrite
  split <;> simp_all

/-- An overwrite keeps the size of the region. -/
theorem overwrite_length {m bs out : List Byte} {off : Nat}
    (h : overwrite m off bs = some out)
    : out.length = m.length := by
  unfold overwrite at h
  split at h
  · obtain rfl := Option.some.inj h
    simp
    omega
  · cases h

/-- Bytes outside the overwritten part stay. -/
theorem overwrite_getElem?_of_outside {m bs out : List Byte} {off i : Nat}
    (h : overwrite m off bs = some out) (outside : i < off ∨ off + bs.length ≤ i)
    : out[i]? = m[i]? := by
  unfold overwrite at h
  split at h
  · next fits =>
      obtain rfl := Option.some.inj h
      have front : (m.take off).length = off := by
        rw [List.length_take]
        omega
      rcases outside with before | behind
      · rw [List.append_assoc, List.getElem?_append_left (by omega),
          List.getElem?_take_of_lt before]
      · rw [List.getElem?_append_right (by rw [List.length_append]; omega), List.getElem?_drop,
          List.length_append, front, Nat.add_sub_cancel' behind]
  · cases h

/-- Overwriting at the end of a finished part extends that part. -/
theorem overwrite_append {done rest bs : List Byte} {off : Nat} (at_end : done.length = off)
    (fits : bs.length ≤ rest.length)
    : overwrite (done ++ rest) off bs = some ((done ++ bs) ++ rest.drop bs.length) := by
  subst at_end
  rw [overwrite, if_pos (by simp [fits])]
  congr 1
  rw [List.take_left' rfl, ← List.drop_drop, List.drop_left' rfl]

/-- Overwriting a middle part of the same length replaces it. -/
theorem overwrite_middle {front old rest bs : List Byte} {off : Nat}
    (start : front.length = off) (same : bs.length = old.length)
    : overwrite (front ++ old ++ rest) off bs = some (front ++ bs ++ rest) := by
  subst start
  rw [overwrite, if_pos (by simp [same])]
  congr 1
  rw [List.append_assoc front old rest, List.take_left' rfl, ← List.drop_drop,
    List.drop_left' rfl, same, List.drop_left' rfl]

/-- The region with `bs` over its start. -/
def overlay (m bs : List Byte) : List Byte := bs ++ m.drop bs.length

@[simp]
theorem overlay_nil (m : List Byte) : overlay m [] = m := rfl

theorem overlay_length {m bs : List Byte} (fits : bs.length ≤ m.length)
    : (overlay m bs).length = m.length := by
  simp [overlay, fits]

/-- What was written is the start of the region. -/
theorem take_overlay (m bs : List Byte) : (overlay m bs).take bs.length = bs :=
  List.take_left' rfl

/-- Writing the start of what is there changes nothing. -/
theorem overlay_take (m bs : List Byte) (k : Nat)
    : overlay (overlay m bs) (bs.take k) = overlay m bs := by
  have short : (bs.take k).length ≤ bs.length := List.length_take_le' k bs
  have start : bs.take k = bs.take (bs.take k).length := by
    rw [List.length_take, ← List.take_take, List.take_length]
  rw [overlay, overlay, List.drop_append_of_le_length short, ← List.append_assoc]
  nth_rewrite 1 [start]
  rw [List.take_append_drop]

/-- Behind what was written, the region stays. -/
theorem overlay_getElem?_of_le {m done : List Byte} {i : Nat} (behind : done.length ≤ i)
    : (overlay m done)[i]? = m[i]? := by
  rw [overlay, List.getElem?_append_right behind, List.getElem?_drop, Nat.add_sub_cancel' behind]

/-- A byte of the region is what was written there, if anything was. -/
theorem overlay_getElem? (m bs : List Byte) (i : Nat) : (overlay m bs)[i]? = bs[i]?.or m[i]? := by
  by_cases inside : i < bs.length
  · rw [overlay, List.getElem?_append_left inside, List.getElem?_eq_getElem inside, Option.some_or]
  · have past : bs[i]? = none := List.getElem?_eq_none (by omega)
    rw [overlay_getElem?_of_le (by omega), past, Option.none_or]

/-- The start of the region reads as what was written and the region's bytes behind it. -/
theorem slice_overlay (m bs : List Byte) {n : Nat} (fits : bs.length + n ≤ m.length)
    : ∃ surplus, slice (overlay m bs) 0 (bs.length + n) = some surplus
        ∧ surplus.toList = bs ++ (m.drop bs.length).take n := by
  have inside : 0 + (bs.length + n) ≤ (overlay m bs).length := by
    rw [overlay_length (by omega)]
    omega
  rw [slice, dif_pos inside]
  refine ⟨_, rfl, ?_⟩
  change ((overlay m bs).drop 0).take (bs.length + n) = _
  rw [List.drop_zero, overlay, List.take_append, List.take_of_length_le (by omega),
    Nat.add_sub_cancel_left]

/-- Writing on where the written part ends extends it. -/
theorem overwrite_overlay {m done bs : List Byte} (fits : (done ++ bs).length ≤ m.length)
    : overwrite (overlay m done) done.length bs = some (overlay m (done ++ bs)) := by
  rw [List.length_append] at fits
  rw [overlay, overwrite_append rfl (by rw [List.length_drop]; omega), List.drop_drop, overlay,
    List.length_append]

/-- Writing within the written part replaces bytes of it. -/
theorem overwrite_overlay_middle {m front old back bs : List Byte}
    (same : bs.length = old.length)
    : overwrite (overlay m (front ++ old ++ back)) front.length bs
      = some (overlay m (front ++ bs ++ back)) := by
  rw [overlay, List.append_assoc, overwrite_middle rfl same, overlay, List.append_assoc]
  simp only [List.length_append, List.append_assoc, same]

end ByteStrings
