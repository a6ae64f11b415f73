import Lixy.Common

/-! Prefixes of patricia.c: their copies, their comparison on leading bits, and the key a
prefix stands for in the tree. The tree looks at leading bits only, never at the family.
-/

namespace Lixy

open ByteStrings

/-- `prefix_t`; an IPv4 address occupies the first four bytes of `add`. -/
structure Prefix where
  family : Nat
  bitlen : Nat
  refCount : Nat
  add : Bytes 16
deriving DecidableEq

/-- A prefix after `memset (.., 0, ..)`. -/
def Prefix.zero : Prefix := { family := 0, bitlen := 0, refCount := 0, add := zeros 16 }

/-- `add.sin` of the address union -/
def sin (add : Bytes 16) : Bytes 4 := ⟨add.toList.take 4, by simp⟩

/-- The bytes of the address union behind `add.sin`. -/
def sinTail (add : Bytes 16) : Bytes 12 := ⟨add.toList.drop 4, by simp⟩

/-- The `struct in_addr` of four octets. -/
def inAddr (b₀ b₁ b₂ b₃ : Byte) : Bytes 4 := ⟨[b₀, b₁, b₂, b₃], rfl⟩

/-- Assign `add.sin` and leave the rest of the union. -/
def setSin (addr : Bytes 4) (add : Bytes 16) : Bytes 16 :=
  ⟨addr.toList ++ (sinTail add).toList, by simp⟩

/-- `New_Prefix2` with a NULL prefix and a given length: a zeroed copy of the family's
own address bytes, or NULL for any other family.
-/
def newPrefix (family : Nat) (dest : Bytes 16) (bitlen : Nat) : Option Prefix :=
  if family = afInet then
    some { family, bitlen, refCount := 1, add := setSin (sin dest) (zeros 16) }
  else if family = afInet6 then
    some { family, bitlen, refCount := 1, add := dest }
  else
    none

/-- `Ref_Prefix`: a static prefix is copied, a counted one is shared. -/
def refPrefix (pfx : Prefix) : Option Prefix :=
  if pfx.refCount = 0 then
    newPrefix pfx.family pfx.add pfx.bitlen
  else
    some { pfx with refCount := pfx.refCount + 1 }

/-- `ADDRTOPREFIX`, with the address at `addrOff` in `pkt`. Only the named family's bytes
are assigned, and nothing at all for another family.
-/
def addrToPrefix (af : Int) (pkt : List Byte) (addrOff len : Nat) (pfx : Prefix)
    : Except Fault Prefix :=
  if af = afInet then do
    let addr ← rdBytes pkt addrOff 4
    return { family := afInet, bitlen := len, refCount := 0, add := setSin addr pfx.add }
  else if af = afInet6 then do
    let addr ← rdBytes pkt addrOff 16
    return { family := afInet6, bitlen := len, refCount := 0, add := addr }
  else
    return pfx

-----------------------------------------------------------------------------------------
-- Bit tests and comparisons
-----------------------------------------------------------------------------------------

/-- `BIT_TEST` -/
def bitTest (f b : Byte) : Bool := f &&& b != 0

/-- `BIT_TEST (addr[bit >> 3], 0x80 >> (bit & 0x07))` -/
def addrBit (addr : List Byte) (bit : Nat) : Bool :=
  bitTest (addr.getD (bit >>> 3) 0) (0x80#8 >>> (bit &&& 0x07))

/-- `comp_with_mask` -/
def compWithMask (addr dest : List Byte) (mask : Nat) : Bool :=
  let n := mask / 8
  let m : Byte := (-1#8) <<< (8 - mask % 8)
  addr.take n == dest.take n
    && (mask % 8 == 0 || addr.getD n 0 &&& m == dest.getD n 0 &&& m)

/-- The inner loop of `patricia_lookup`'s comparison: the first set bit of `r`. -/
def firstBit (r : Byte) : Nat :=
  ((List.range 8).find? (fun j => bitTest r (0x80#8 >>> j))).getD 8

/-- The outer loop from byte `i` on, with `differ` as left by the bytes before it. -/
def differBitFrom (addr testAddr : List Byte) (checkBit : Nat) : Nat → Nat → Nat → Nat
  | 0, _, differ => differ
  | fuel + 1, i, differ =>
      if i * 8 < checkBit then
        let r := addr.getD i 0 ^^^ testAddr.getD i 0
        if r = 0 then
          differBitFrom addr testAddr checkBit fuel (i + 1) ((i + 1) * 8)
        else
          i * 8 + firstBit r
      else
        differ

/-- `differ_bit` of `patricia_lookup`: "find the first bit different", cut at `checkBit`. -/
def differBit (addr testAddr : List Byte) (checkBit : Nat) : Nat :=
  min (differBitFrom addr testAddr checkBit ((checkBit + 7) / 8) 0 0) checkBit

-----------------------------------------------------------------------------------------
-- Bit tests read single bits
-----------------------------------------------------------------------------------------

/-- Testing against a one-bit mask reads that bit, by evaluation over all bytes. -/
theorem bitTest_mask (f : Byte) (j : Nat) (hj : j < 8)
    : bitTest f (0x80#8 >>> j) = f.getMsbD j := by
  have all : ∀ j < 8, ∀ f : Byte, bitTest f (0x80#8 >>> j) = f.getMsbD j := by decide +kernel
  exact all j hj f

@[simp]
theorem addrBit_eq (addr : List Byte) (bit : Nat) : addrBit addr bit = bitAt addr bit := by
  have low : bit &&& 7 = bit % 8 := Nat.and_two_pow_sub_one_eq_mod bit 3
  have high : bit >>> 3 = bit / 8 := Nat.shiftRight_eq_div_pow bit 3
  rw [addrBit, low, high, bitTest_mask _ _ (Nat.mod_lt _ (by decide)), bitAt]

/-- The first set bit of a nonzero byte: it is set and no earlier one is. -/
theorem firstBit_spec (r : Byte) (h : r ≠ 0)
    : firstBit r < 8
      ∧ r.getMsbD (firstBit r) = true
      ∧ ∀ j < firstBit r, r.getMsbD j = false := by
  have all : ∀ r : Byte, r ≠ 0 → firstBit r < 8 ∧ r.getMsbD (firstBit r) = true
      ∧ ∀ j < firstBit r, r.getMsbD j = false := by decide +kernel
  exact all r h

/-- Comparing two bytes under a mask of `k` leading ones compares their first `k` bits. -/
theorem masked_eq_iff (a b : Byte) (k : Nat) (hk : k < 8)
    : a &&& (-1#8) <<< (8 - k) = b &&& (-1#8) <<< (8 - k)
      ↔ ∀ j < k, a.getMsbD j = b.getMsbD j := by
  have ones (j : Nat) (hj : j < 8) : ((-1#8) <<< (8 - k)).getMsbD j = decide (j < k) := by
    have all : ∀ k < 8, ∀ j < 8, ((-1#8) <<< (8 - k)).getMsbD j = decide (j < k) := by
      decide +kernel
    exact all k hk j hj
  constructor
  · intro h j hj
    have bit := congrArg (fun x => BitVec.getMsbD x j) h
    simpa only [BitVec.getMsbD_and, ones j (by omega), hj, decide_true, Bool.and_true] using bit
  · intro h
    apply BitVec.eq_of_getMsbD_eq
    intro j hj
    by_cases lt : j < k
    · simp only [BitVec.getMsbD_and, h j lt]
    · simp only [BitVec.getMsbD_and, ones j hj, lt, decide_false, Bool.and_false]

-----------------------------------------------------------------------------------------
-- Comparisons speak about leading bits
-----------------------------------------------------------------------------------------

/-- Byte strings of one length share their first `n` bytes exactly when they share the
first `8 * n` bits.
-/
theorem take_eq_iff_bits {a b : List Byte} (len : a.length = b.length) (n : Nat)
    : a.take n = b.take n ↔ ∀ i < 8 * n, bitAt a i = bitAt b i := by
  constructor
  · intro h i hi
    have byte : a[i / 8]? = b[i / 8]? := by
      have at_i := congrArg (fun l => l[i / 8]?) h
      simpa [List.getElem?_take, show i / 8 < n by omega] using at_i
    simp [bitAt, List.getD, byte]
  · intro h
    apply List.ext_getElem (by simp [len])
    intro k hk hk'
    simp only [List.length_take] at hk
    have byte := getD_eq_of_bits (a := a) (b := b) (k := k)
      (fun j hj => h (k * 8 + j) (by omega))
    have inA : k < a.length := by omega
    have inB : k < b.length := by omega
    simpa [List.getD, inA, inB] using byte

/-- `comp_with_mask` compares exactly the first `mask` bits. -/
theorem compWithMask_iff {a b : List Byte} (len : a.length = b.length) (mask : Nat)
    : compWithMask a b mask = true ↔ bits a mask = bits b mask := by
  have split_bits : (∀ i < mask, bitAt a i = bitAt b i)
      ↔ (∀ i < 8 * (mask / 8), bitAt a i = bitAt b i)
        ∧ ∀ j < mask % 8, bitAt a (8 * (mask / 8) + j) = bitAt b (8 * (mask / 8) + j) := by
    constructor
    · exact fun h => ⟨fun i hi => h i (by omega), fun j hj => h _ (by omega)⟩
    · rintro ⟨front, back⟩ i hi
      by_cases lt : i < 8 * (mask / 8)
      · exact front i lt
      · have last := back (i - 8 * (mask / 8)) (by omega)
        rwa [show 8 * (mask / 8) + (i - 8 * (mask / 8)) = i by omega] at last
  have last_byte (j : Nat) (hj : j < mask % 8) (c : List Byte)
      : bitAt c (8 * (mask / 8) + j) = (c.getD (mask / 8) 0).getMsbD j := by
    rw [bitAt, show (8 * (mask / 8) + j) / 8 = mask / 8 by omega,
      show (8 * (mask / 8) + j) % 8 = j by omega]
  have tail : (mask % 8 = 0 ∨ a.getD (mask / 8) 0 &&& (-1#8) <<< (8 - mask % 8)
        = b.getD (mask / 8) 0 &&& (-1#8) <<< (8 - mask % 8))
      ↔ ∀ j < mask % 8, bitAt a (8 * (mask / 8) + j) = bitAt b (8 * (mask / 8) + j) := by
    rw [masked_eq_iff _ _ _ (Nat.mod_lt _ (by decide))]
    constructor
    · rintro (none | some) j hj
      · omega
      · rw [last_byte j hj, last_byte j hj, some j hj]
    · exact fun h => Or.inr (fun j hj => by rw [← last_byte j hj, ← last_byte j hj, h j hj])
  rw [bits_eq_iff, split_bits, ← take_eq_iff_bits len, ← tail]
  simp only [compWithMask, Bool.and_eq_true, Bool.or_eq_true, beq_iff_eq]

/-- The comparison loop finds the first differing bit at or after byte `i`, or runs to
the end; by induction on the bytes left.
-/
theorem differBitFrom_spec (a b : List Byte) (checkBit fuel i : Nat)
    (enough : checkBit ≤ (i + fuel) * 8) (same : ∀ k < i * 8, bitAt a k = bitAt b k)
    : let d := differBitFrom a b checkBit fuel i (i * 8)
      (∀ k < d, bitAt a k = bitAt b k) ∧ (d < checkBit → bitAt a d ≠ bitAt b d) := by
  induction fuel generalizing i with
  | zero => exact ⟨same, fun h => by simp only [differBitFrom] at h; omega⟩
  | succ fuel ih =>
      have byte (j : Nat) (hj : j < 8)
          : (a.getD i 0 ^^^ b.getD i 0).getMsbD j
            = (bitAt a (i * 8 + j) ^^ bitAt b (i * 8 + j)) := by
        rw [bitAt, bitAt, show (i * 8 + j) / 8 = i by omega, show (i * 8 + j) % 8 = j by omega]
        simp
      simp only [differBitFrom]
      split
      · split
        · next zero =>
            refine ih (i + 1) (by omega) ?_
            intro k hk
            by_cases lt : k < i * 8
            · exact same k lt
            · have bit := byte (k - i * 8) (by omega)
              rw [zero, show i * 8 + (k - i * 8) = k by omega] at bit
              simpa using bit
        · next nonzero =>
            obtain ⟨bound, set, first⟩ := firstBit_spec _ nonzero
            constructor
            · intro k hk
              by_cases lt : k < i * 8
              · exact same k lt
              · have bit := byte (k - i * 8) (by omega)
                rw [first (k - i * 8) (by omega), show i * 8 + (k - i * 8) = k by omega] at bit
                simpa using bit.symm
            · intro _ equal
              have bit := byte _ bound
              rw [set, equal] at bit
              simp at bit
      · next past => exact ⟨same, fun h => by omega⟩

/-- `differ_bit` is the number of leading bits the two addresses share, up to the bound. -/
theorem differBit_spec (a b : List Byte) (checkBit : Nat)
    : differBit a b checkBit ≤ checkBit
      ∧ bits a (differBit a b checkBit) = bits b (differBit a b checkBit)
      ∧ (differBit a b checkBit < checkBit
          → bitAt a (differBit a b checkBit) ≠ bitAt b (differBit a b checkBit)) := by
  have loop := differBitFrom_spec a b checkBit ((checkBit + 7) / 8) 0 (by omega)
    (fun k hk => by omega)
  rw [Nat.zero_mul] at loop
  obtain ⟨same, differs⟩ := loop
  refine ⟨Nat.min_le_right _ _, ?_, ?_⟩
  · exact bits_eq_iff.mpr (fun k hk => same k (Nat.lt_of_lt_of_le hk (Nat.min_le_left _ _)))
  · intro lt
    have cut : differBit a b checkBit = differBitFrom a b checkBit ((checkBit + 7) / 8) 0 0 := by
      unfold differBit at lt ⊢
      omega
    rw [cut] at lt ⊢
    exact differs lt

-----------------------------------------------------------------------------------------
-- Keys
-----------------------------------------------------------------------------------------

/-- The leading bits that place a prefix in the tree. -/
def Prefix.key (pfx : Prefix) : List Bool := bits pfx.add.toList pfx.bitlen

@[simp]
theorem Prefix.key_length (pfx : Prefix) : pfx.key.length = pfx.bitlen := bits_length _ _

/-- Every address of `d` is one of `p`. -/
def Prefix.Covers (p d : Prefix) : Prop := p.family = d.family ∧ p.key <+: d.key

/-- The address and length limits of the two families. -/
def Prefix.Valid (pfx : Prefix) : Prop :=
  pfx.family = afInet ∧ pfx.bitlen ≤ 32 ∨ pfx.family = afInet6 ∧ pfx.bitlen ≤ 128

instance (pfx : Prefix) : Decidable pfx.Valid := by
  unfold Prefix.Valid; infer_instance

/-- A prefix whose copy has the same key: no length reaches into bytes a copy drops. -/
def Prefix.Copyable (pfx : Prefix) : Prop :=
  pfx.refCount = 0 → pfx.family = afInet
    → pfx.bitlen ≤ 32 ∨ sinTail pfx.add = sinTail (zeros 16)

theorem Prefix.Valid.bitlen_le {pfx : Prefix} (h : pfx.Valid) : pfx.bitlen ≤ 128 := by
  rcases h with ⟨_, h⟩ | ⟨_, h⟩ <;> omega

theorem Prefix.Valid.copyable {pfx : Prefix} (h : pfx.Valid) : pfx.Copyable := by
  intro _ family
  rcases h with ⟨_, short⟩ | ⟨other, _⟩
  · exact Or.inl short
  · rw [family] at other; cases other

theorem setSin_self (add : Bytes 16) : setSin (sin add) add = add := by
  apply List.Vector.eq
  change add.toList.take 4 ++ add.toList.drop 4 = add.toList
  rw [List.take_append_drop]

theorem sin_setSin (addr : Bytes 4) (add : Bytes 16) : sin (setSin addr add) = addr := by
  apply List.Vector.eq
  change (addr.toList ++ (sinTail add).toList).take 4 = addr.toList
  rw [List.take_left' (by simp)]

theorem sinTail_setSin (addr : Bytes 4) (add : Bytes 16)
    : sinTail (setSin addr add) = sinTail add := by
  apply List.Vector.eq
  change (addr.toList ++ (sinTail add).toList).drop 4 = (sinTail add).toList
  rw [List.drop_left' (by simp)]

/-- Two addresses with one `sin` share their first 32 bits. -/
theorem bits_setSin (addr : Bytes 4) (left right : Bytes 16) {n : Nat} (h : n ≤ 32)
    : bits (setSin addr left).toList n = bits (setSin addr right).toList n := by
  change bits (addr.toList ++ _) n = bits (addr.toList ++ _) n
  rw [bits_append_left (by simpa using h), bits_append_left (by simpa using h)]

/-- `Ref_Prefix` keeps family, length and key. -/
theorem refPrefix_eq_some {pfx copy : Prefix} (h : refPrefix pfx = some copy)
    (copyable : pfx.Copyable)
    : copy.family = pfx.family ∧ copy.bitlen = pfx.bitlen ∧ copy.key = pfx.key := by
  unfold refPrefix at h
  split at h
  · next static =>
      unfold newPrefix at h
      split at h
      · next inet =>
          obtain rfl := Option.some.inj h
          refine ⟨rfl, rfl, ?_⟩
          change bits (setSin (sin pfx.add) (zeros 16)).toList pfx.bitlen
            = bits pfx.add.toList pfx.bitlen
          rcases copyable static inet with short | clean
          · conv_rhs => rw [← setSin_self pfx.add]
            exact bits_setSin _ _ _ short
          · have same : setSin (sin pfx.add) (zeros 16) = pfx.add := by
              apply List.Vector.eq
              change (sin pfx.add).toList ++ (sinTail (zeros 16)).toList = pfx.add.toList
              rw [← clean]
              exact List.take_append_drop 4 pfx.add.toList
            rw [same]
      · split at h
        · obtain rfl := Option.some.inj h
          exact ⟨rfl, rfl, rfl⟩
        · cases h
  · obtain rfl := Option.some.inj h
    exact ⟨rfl, rfl, rfl⟩

/-- `Ref_Prefix` succeeds for both address families. -/
theorem refPrefix_isSome {pfx : Prefix} (h : pfx.family = afInet ∨ pfx.family = afInet6)
    : (refPrefix pfx).isSome := by
  unfold refPrefix newPrefix
  rcases h with h | h <;> simp only [h] <;> split <;> rfl

end Lixy
