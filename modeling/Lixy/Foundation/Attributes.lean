import Lixy.Foundation.ByteStrings

/-! Numbers in the byte order of a host, and attributes one behind the other: a length, a type and
data, padded to a multiple of four bytes. Walking over attributes gives back what was encoded.
-/

namespace Attributes

open ByteStrings

-----------------------------------------------------------------------------------------
-- Numbers of a host
-----------------------------------------------------------------------------------------

/-- The byte order of a host. -/
inductive ByteOrder
  | little
  | big

namespace ByteOrder

/-- Bytes as they lie in memory, from the most significant one on, or the other way about. -/
def arrange : ByteOrder → List Byte → List Byte
  | little, bs => bs.reverse
  | big, bs => bs

def put16 (order : ByteOrder) (n : Nat) : List Byte := order.arrange (ByteStrings.put16 n)

def put32 (order : ByteOrder) (n : Nat) : List Byte := order.arrange (ByteStrings.put32 n)

/-- The number that bytes in memory are. -/
def get (order : ByteOrder) (bs : List Byte) : Nat :=
  (order.arrange bs).foldl (fun n b => n * 256 + b.toNat) 0

variable (order : ByteOrder)

@[simp]
theorem arrange_arrange (bs : List Byte) : order.arrange (order.arrange bs) = bs := by
  cases order with
  | little => exact List.reverse_reverse bs
  | big => rfl

@[simp]
theorem arrange_length (bs : List Byte) : (order.arrange bs).length = bs.length := by
  cases order with
  | little => exact List.length_reverse
  | big => rfl

@[simp]
theorem put16_length (n : Nat) : (order.put16 n).length = 2 := by simp [put16]

@[simp]
theorem put32_length (n : Nat) : (order.put32 n).length = 4 := by simp [put32]

theorem get_put16 {n : Nat} (fits : n < 65536) : order.get (order.put16 n) = n := by
  simp only [get, put16, arrange_arrange, ByteStrings.put16, List.foldl_cons, List.foldl_nil,
    BitVec.toNat_ofNat]
  omega

theorem get_put32 {n : Nat} (fits : n < 4294967296) : order.get (order.put32 n) = n := by
  simp only [get, put32, arrange_arrange, ByteStrings.put32, ByteStrings.put16,
    List.cons_append, List.nil_append, List.foldl_cons, List.foldl_nil, BitVec.toNat_ofNat]
  omega

end ByteOrder

-----------------------------------------------------------------------------------------
-- Attributes
-----------------------------------------------------------------------------------------

/-- The next multiple of four. -/
def align (n : Nat) : Nat := (n + 3) / 4 * 4

theorem le_align (n : Nat) : n ≤ align n := by
  rw [align]
  omega

/-- An attribute whose type and length have a place in it. -/
structure Attribute where
  type : Nat
  data : List Byte
  typeFits : type < 65536
  lengthFits : 4 + data.length < 65536

/-- The length that the attribute tells, without its padding. -/
def Attribute.length (a : Attribute) : Nat := 4 + a.data.length

/-- The attribute in memory, without its padding. -/
def Attribute.body (order : ByteOrder) (a : Attribute) : List Byte :=
  order.put16 a.length ++ order.put16 a.type ++ a.data

/-- The attribute in memory. -/
def Attribute.bytes (order : ByteOrder) (a : Attribute) : List Byte :=
  a.body order ++ List.replicate (align a.length - a.length) 0

/-- Attributes in memory. -/
def encode (order : ByteOrder) (attrs : List Attribute) : List Byte :=
  attrs.flatMap (Attribute.bytes order)

/-- The types and the data of the attributes from the start of the bytes on, as long as the bytes
go so far.
-/
def walk (order : ByteOrder) : Nat → List Byte → List (Nat × List Byte)
  | 0, _ => []
  | fuel + 1, bytes =>
      let length := order.get (bytes.take 2)
      if bytes.length < 4 ∨ length < 4 ∨ bytes.length < length then []
      else
        (order.get ((bytes.drop 2).take 2), (bytes.take length).drop 4)
          :: walk order fuel (bytes.drop (align length))

section

variable {order : ByteOrder} (a : Attribute)

@[simp]
theorem Attribute.body_length : (a.body order).length = a.length := by
  simp only [body, List.length_append, ByteOrder.put16_length, length]

@[simp]
theorem Attribute.bytes_length : (a.bytes order).length = align a.length := by
  have padded := le_align a.length
  simp only [bytes, List.length_append, body_length, List.length_replicate]
  omega

/-- Before anything else, a walk finds the attribute that is at the start. -/
theorem walk_body (fuel : Nat) (behind : List Byte)
    : walk order (fuel + 1) (a.body order ++ behind)
      = (a.type, a.data)
        :: walk order fuel ((a.body order ++ behind).drop (align a.length)) := by
  have length : order.get ((a.body order ++ behind).take 2) = a.length := by
    have first : (a.body order ++ behind).take 2 = order.put16 a.length := by
      rw [Attribute.body, List.append_assoc, List.append_assoc, List.take_left' (by simp)]
    rw [first]
    exact order.get_put16 a.lengthFits
  have type : order.get (((a.body order ++ behind).drop 2).take 2) = a.type := by
    have second : ((a.body order ++ behind).drop 2).take 2 = order.put16 a.type := by
      rw [Attribute.body, List.append_assoc, List.append_assoc, List.drop_left' (by simp),
        List.take_left' (by simp)]
    rw [second, order.get_put16 a.typeFits]
  have data : ((a.body order ++ behind).take a.length).drop 4 = a.data := by
    rw [List.take_left' a.body_length, Attribute.body, List.drop_left' (by simp)]
  have enough : ¬ ((a.body order ++ behind).length < 4 ∨ a.length < 4
      ∨ (a.body order ++ behind).length < a.length) := by
    rw [List.length_append, a.body_length, Attribute.length]
    omega
  simp only [walk, length, type, data, if_neg enough]

/-- An attribute whose data end at a multiple of four has no padding. -/
theorem Attribute.bytes_eq_body (aligned : a.data.length % 4 = 0)
    : a.bytes order = a.body order := by
  have none : align a.length - a.length = 0 := by
    rw [align, length]
    omega
  rw [bytes, none, List.replicate_zero, List.append_nil]

/-- Attributes end at a multiple of four. -/
theorem encode_length_mod (attrs : List Attribute) : (encode order attrs).length % 4 = 0 := by
  induction attrs with
  | nil => rfl
  | cons a rest ih =>
      rw [encode, List.flatMap_cons, ← encode, List.length_append, a.bytes_length, align]
      omega

/-- There are no more attributes than bytes. -/
theorem length_le_encode (attrs : List Attribute) : attrs.length ≤ (encode order attrs).length := by
  induction attrs with
  | nil => exact Nat.zero_le _
  | cons a rest ih =>
      have padded := le_align a.length
      rw [Attribute.length] at padded
      rw [encode, List.flatMap_cons, ← encode, List.length_append, a.bytes_length, List.length_cons]
      rw [Attribute.length]
      omega

/-- Walking over attributes gives back what was encoded; by induction on the attributes. -/
theorem walk_encode {attrs : List Attribute} {fuel : Nat} (enough : attrs.length ≤ fuel)
    : walk order fuel (encode order attrs) = attrs.map fun a => (a.type, a.data) := by
  induction attrs generalizing fuel with
  | nil =>
      cases fuel with
      | zero => rfl
      | succ fuel => rfl
  | cons a rest ih =>
      cases fuel with
      | zero => cases enough
      | succ fuel =>
          have next : (a.bytes order ++ encode order rest).drop (align a.length)
              = encode order rest := List.drop_left' a.bytes_length
          rw [encode, List.flatMap_cons, ← encode, Attribute.bytes, List.append_assoc, walk_body,
            ← List.append_assoc, ← Attribute.bytes, next, ih (Nat.le_of_succ_le_succ enough),
            List.map_cons]

end

end Attributes
