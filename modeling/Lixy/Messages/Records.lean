import Lixy.Messages.Parsers
import Lixy.MapTable.Writers

/-! The fields of a Map-Reply, what a read behind the end means for a computation, and the
effect of each record as a writer of the map table.
-/

namespace Lixy

open ByteStrings
open LongestPrefix (best)

-----------------------------------------------------------------------------------------
-- Reads
-----------------------------------------------------------------------------------------

/-- The byte at an offset; behind the end it counts as 0. -/
def byteAt (pkt : List Byte) (off : Nat) : Byte := pkt.getD off 0

/-- The 16-bit field at an offset. -/
def field16 (pkt : List Byte) (off : Nat) : Nat := be16 (byteAt pkt off) (byteAt pkt (off + 1))

/-- A byte of what lies at an offset. -/
theorem byteAt_of_liesAt {pkt bs : List Byte} {off : Nat} (h : LiesAt pkt off bs) {i : Nat}
    (lt : i < bs.length)
    : byteAt pkt (off + i) = bs.getD i 0 := by
  rw [byteAt, List.getD, List.getD, h.getElem? lt]

theorem field16_of_liesAt {pkt bs : List Byte} {off : Nat} (h : LiesAt pkt off bs) {i : Nat}
    (lt : i + 1 < bs.length)
    : field16 pkt (off + i) = be16 (bs.getD i 0) (bs.getD (i + 1) 0) := by
  rw [field16, byteAt_of_liesAt h (by omega), Nat.add_assoc, byteAt_of_liesAt h lt]

/-- The computation reads nothing but the bytes it is given: nothing behind their end, and no
number as the address of a string.
-/
def Inside {α : Type} (x : Except Fault α) : Prop :=
  (∀ off, x ≠ .error (.readPast off)) ∧ x ≠ .error .formatNonString

section

variable {α β : Type}

@[simp]
theorem inside_ok (a : α) : Inside (Except.ok a : Except Fault α) := by
  constructor
  · intro _ eq
    cases eq
  · intro eq
    cases eq

@[simp]
theorem inside_pure (a : α) : Inside (pure a : Except Fault α) := inside_ok a

/-- A fault that is no such read stays inside. -/
theorem inside_error {fault : Fault} (past : ∀ off, fault ≠ .readPast off)
    (printed : fault ≠ .formatNonString)
    : Inside (.error fault : Except Fault α) := by
  constructor
  · intro off eq
    cases eq
    exact past off rfl
  · intro eq
    cases eq
    exact printed rfl

theorem inside_nullDereference : Inside (.error .nullDereference : Except Fault α) :=
  inside_error (fun _ eq => Fault.noConfusion eq) fun eq => Fault.noConfusion eq

theorem inside_assertFailed (assertion : Assertion)
    : Inside (.error (.assertFailed assertion) : Except Fault α) :=
  inside_error (fun _ eq => Fault.noConfusion eq) fun eq => Fault.noConfusion eq

@[simp]
theorem not_inside_readPast (off : Nat) : ¬ Inside (.error (.readPast off) : Except Fault α) :=
  fun h => h.1 off rfl

@[simp]
theorem not_inside_formatNonString : ¬ Inside (.error .formatNonString : Except Fault α) :=
  fun h => h.2 rfl

theorem inside_ite {c : Prop} [Decidable c] {x y : Except Fault α} (yes : Inside x)
    (no : Inside y)
    : Inside (if c then x else y) := by
  split
  · exact yes
  · exact no

/-- A sequence stays inside when its start does, and then its continuation. -/
theorem inside_bind {x : Except Fault α} {f : α → Except Fault β}
    : Inside (x >>= f) ↔ Inside x ∧ ∀ a, x = .ok a → Inside (f a) := by
  cases x with
  | error fault =>
      have same : ∀ other, ((Except.error fault : Except Fault α) >>= f) = .error other
          ↔ (Except.error fault : Except Fault α) = .error other := by
        intro other
        simp [bind, Except.bind]
      simp [Inside, same]
  | ok a =>
      constructor
      · exact fun h => ⟨inside_ok a, by rintro _ ⟨⟩; exact h⟩
      · exact fun h => h.2 a rfl

@[simp]
theorem inside_map {x : Except Fault α} {f : α → β} : Inside (f <$> x) ↔ Inside x := by
  cases x <;> simp [Inside, Functor.map, Except.map]

end

section

variable {pkt : List Byte} {off : Nat}

theorem rd_eq_ok {b : Byte} : rd pkt off = .ok b ↔ off < pkt.length ∧ b = byteAt pkt off := by
  unfold rd byteAt
  cases h : pkt[off]? with
  | none =>
      have past := List.getElem?_eq_none_iff.mp h
      simp [Nat.not_lt.mpr past]
  | some c =>
      obtain ⟨inside, _⟩ := List.getElem?_eq_some_iff.mp h
      rw [List.getD, h]
      simp [inside, eq_comm]

theorem inside_rd : Inside (rd pkt off) ↔ off < pkt.length := by
  unfold rd
  cases h : pkt[off]? with
  | none => simpa using List.getElem?_eq_none_iff.mp h
  | some c => simpa using (List.getElem?_eq_some_iff.mp h).1

theorem rd16_eq_ok {n : Nat}
    : rd16 pkt off = .ok n ↔ off + 2 ≤ pkt.length ∧ n = field16 pkt off := by
  simp only [rd16, bind_eq_ok, rd_eq_ok, pure_eq_ok, field16]
  constructor
  · rintro ⟨_, ⟨_, rfl⟩, _, ⟨inside, rfl⟩, rfl⟩
    exact ⟨by omega, rfl⟩
  · rintro ⟨inside, rfl⟩
    exact ⟨_, ⟨by omega, rfl⟩, _, ⟨by omega, rfl⟩, rfl⟩

/-- Only 0 is printed for a number without a read elsewhere. -/
theorem inside_formatString {value : Int} : Inside (formatString value) ↔ value = 0 := by
  unfold formatString
  split <;> simp_all

theorem inside_rd16 : Inside (rd16 pkt off) ↔ off + 2 ≤ pkt.length := by
  simp only [rd16, inside_bind, inside_rd, inside_pure, rd_eq_ok]
  constructor
  · exact fun h => h.2 _ ⟨h.1, rfl⟩ |>.1
  · exact fun h => ⟨by omega, fun _ _ => ⟨by omega, fun _ _ => trivial⟩⟩

theorem rdBytes_eq_ok {n : Nat} {bs : Bytes n}
    : rdBytes pkt off n = .ok bs ↔ slice pkt off n = some bs := by
  unfold rdBytes
  split <;> simp_all

theorem inside_rdBytes {n : Nat} : Inside (rdBytes pkt off n) ↔ off + n ≤ pkt.length := by
  rw [← slice_isSome_iff, rdBytes]
  split <;> simp_all

theorem rdBytes_total {n : Nat} (inside : off + n ≤ pkt.length)
    : ∃ bs, rdBytes pkt off n = .ok bs := by
  obtain ⟨bs, h⟩ := Option.isSome_iff_exists.mp (slice_isSome_iff.mpr inside)
  exact ⟨bs, rdBytes_eq_ok.mpr h⟩

end

-----------------------------------------------------------------------------------------
-- Fields of a record
-----------------------------------------------------------------------------------------

section

variable (pkt : List Byte) (record : Nat)

/-- `ntohs (rec->eid_prefix_afi)` -/
def recordAfi : Nat := field16 pkt (record + 10)

/-- `rec->eid_mask_len` -/
def recordMaskLen : Nat := (byteAt pkt (record + 5)).toNat

/-- `rec->act` -/
def recordAct : Nat := (byteAt pkt (record + 6) >>> 5).toNat

/-- `rec->locator_count` -/
def recordLocatorCount : Nat := (byteAt pkt (record + 4)).toNat

/-- `ntohs (lisploc->afi)` -/
def locatorAfi (lisploc : Nat) : Nat := field16 pkt (lisploc + 6)

/-- The bytes of an address that a family's macros read. -/
def addrLen (afi : Nat) : Nat :=
  if afi = lispAfiIpv4 then 4 else if afi = lispAfiIpv6 then 16 else 0

/-- The offset behind `n` locators. -/
def locatorsEnd : Nat → Nat → Nat
  | 0, off => off
  | n + 1, off => locatorsEnd n (off + lispLocatorPktLen (locatorAfi pkt off))

/-- The locator that the selection loop ends with. -/
def selectedLocator : Nat → Nat → Nat → Nat
  | 0, lisploc, _ => lisploc
  | n + 1, lisploc, tmplisploc =>
      selectedLocator n
        (if byteAt pkt lisploc < byteAt pkt tmplisploc then tmplisploc else lisploc)
        (tmplisploc + lispLocatorPktLen (locatorAfi pkt tmplisploc))

/-- Every one of `n` locators meets `p`. -/
def EachLocator (p : Nat → Prop) : Nat → Nat → Prop
  | 0, _ => True
  | n + 1, off => p off ∧ EachLocator p n (off + lispLocatorPktLen (locatorAfi pkt off))

instance decidableEachLocator (p : Nat → Prop) [DecidablePred p]
    : (n off : Nat) → Decidable (EachLocator pkt p n off)
  | 0, _ => isTrue trivial
  | n + 1, off =>
      have := decidableEachLocator p n (off + lispLocatorPktLen (locatorAfi pkt off))
      inferInstanceAs (Decidable (p off ∧ EachLocator pkt p n _))

/-- The offset of the first locator. -/
def recordLocators : Nat := record + lispRecordPktLen (recordAfi pkt record)

/-- The offset behind the record. -/
def recordEnd : Nat := locatorsEnd pkt (recordLocatorCount pkt record) (recordLocators pkt record)

/-- The locator selected among the record's. -/
def recordSelected : Nat :=
  selectedLocator pkt (recordLocatorCount pkt record) (recordLocators pkt record)
    (recordLocators pkt record)

/-- The EID prefix has a known family and fits it. -/
def ValidEid : Prop :=
  recordAfi pkt record = lispAfiIpv4 ∧ recordMaskLen pkt record ≤ 32
    ∨ recordAfi pkt record = lispAfiIpv6 ∧ recordMaskLen pkt record ≤ 128

instance : Decidable (ValidEid pkt record) := by
  unfold ValidEid; infer_instance

end

section

variable {pkt : List Byte}

theorem lispafiToAf_ipv4 : lispafiToAf lispAfiIpv4 = (afInet : Nat) := rfl

theorem lispafiToAf_ipv6 : lispafiToAf lispAfiIpv6 = (afInet6 : Nat) := rfl

theorem lispafiToAf_other {afi : Nat} (h₁ : afi ≠ lispAfiIpv4) (h₂ : afi ≠ lispAfiIpv6)
    : lispafiToAf afi = -1 := by
  rw [lispafiToAf, if_neg h₁, if_neg h₂]

/-- The reads of an address stay inside when the family's bytes do. -/
theorem inside_addrToPrefix {off afi len : Nat} {pfx : Prefix} (start : off ≤ pkt.length)
    : Inside (addrToPrefix (lispafiToAf afi) pkt off len pfx) ↔ off + addrLen afi ≤ pkt.length := by
  by_cases h₁ : afi = lispAfiIpv4
  · subst h₁
    simp [addrToPrefix, lispafiToAf_ipv4, inside_rdBytes, addrLen]
  · by_cases h₂ : afi = lispAfiIpv6
    · subst h₂
      simp [addrToPrefix, lispafiToAf_ipv6, inside_rdBytes, addrLen]
    · simp [addrToPrefix, lispafiToAf_other h₁ h₂, addrLen, h₁, h₂, start]

/-- `FILL_SOCKADDR` reads the same bytes. -/
theorem inside_fillSockaddr {off afi : Nat} {sa : SockaddrStorage} (start : off ≤ pkt.length)
    : Inside (fillSockaddr (lispafiToAf afi) sa pkt off) ↔ off + addrLen afi ≤ pkt.length := by
  by_cases h₁ : afi = lispAfiIpv4
  · subst h₁
    simp [fillSockaddr, lispafiToAf_ipv4, inside_rdBytes, addrLen]
  · by_cases h₂ : afi = lispAfiIpv6
    · subst h₂
      simp [fillSockaddr, lispafiToAf_ipv6, inside_rdBytes, addrLen]
    · simp [fillSockaddr, lispafiToAf_other h₁ h₂, addrLen, h₁, h₂, start]

/-- An AFI with its address. -/
inductive AfiAddress
  | none
  | ipv4 (addr : Bytes 4)
  | ipv6 (addr : Bytes 16)

/-- What `ADDRTOPREFIX` makes of a zeroed prefix. -/
inductive ParsedPrefix (pkt : List Byte) (off afi len : Nat) : Prefix → Prop
  | ipv4 {addr : Bytes 4} (known : afi = lispAfiIpv4) (bytes : slice pkt off 4 = some addr)
      : ParsedPrefix pkt off afi len
          { family := afInet, bitlen := len, refCount := 0, add := setSin addr (zeros 16) }
  | ipv6 {addr : Bytes 16} (known : afi = lispAfiIpv6) (bytes : slice pkt off 16 = some addr)
      : ParsedPrefix pkt off afi len
          { family := afInet6, bitlen := len, refCount := 0, add := addr }
  | unknown (not4 : afi ≠ lispAfiIpv4) (not6 : afi ≠ lispAfiIpv6)
      : ParsedPrefix pkt off afi len .zero

/-- `ADDRTOPREFIX` goes by the AFI. -/
theorem addrToPrefix_eq_ok {off afi len : Nat} {pfx : Prefix}
    : addrToPrefix (lispafiToAf afi) pkt off len .zero = .ok pfx
      ↔ ParsedPrefix pkt off afi len pfx := by
  by_cases h₁ : afi = lispAfiIpv4
  · subst h₁
    simp only [addrToPrefix, lispafiToAf_ipv4, if_pos, bind_eq_ok, rdBytes_eq_ok, pure_eq_ok]
    constructor
    · rintro ⟨addr, bytes, rfl⟩
      exact .ipv4 rfl bytes
    · rintro (⟨_, bytes⟩ | ⟨known, _⟩ | ⟨not4, _⟩)
      · exact ⟨_, bytes, rfl⟩
      · cases known
      · exact absurd rfl not4
  · by_cases h₂ : afi = lispAfiIpv6
    · subst h₂
      have other : ¬ ((afInet6 : Nat) : Int) = (afInet : Nat) := by decide
      simp only [addrToPrefix, lispafiToAf_ipv6, other, if_false, if_pos, bind_eq_ok,
        rdBytes_eq_ok, pure_eq_ok]
      constructor
      · rintro ⟨addr, bytes, rfl⟩
        exact .ipv6 rfl bytes
      · rintro (⟨known, _⟩ | ⟨_, bytes⟩ | ⟨_, not6⟩)
        · cases known
        · exact ⟨_, bytes, rfl⟩
        · exact absurd rfl not6
    · rw [addrToPrefix, lispafiToAf_other h₁ h₂, if_neg (by decide), if_neg (by decide)]
      constructor
      · rintro ⟨⟩
        exact .unknown h₁ h₂
      · rintro (⟨known, _⟩ | ⟨known, _⟩ | _)
        · exact absurd known h₁
        · exact absurd known h₂
        · rfl

/-- A short parsed prefix is storable: an IPv4 address is parsed into zeroed bytes, and a
prefix of an unknown family keeps length 0.
-/
theorem ParsedPrefix.storable {off afi len : Nat} {pfx : Prefix}
    (h : ParsedPrefix pkt off afi len pfx) (short : pfx.bitlen ≤ 128)
    : pfx.Storable := by
  refine ⟨short, ?_, ?_⟩
  · intro _ family
    cases h with
    | ipv4 _ _ => exact Or.inr (sinTail_setSin _ _)
    | ipv6 _ _ => cases family
    | unknown _ _ => exact Or.inl (Nat.zero_le _)
  · intro none
    cases h with
    | ipv4 _ _ => cases none
    | ipv6 _ _ => cases none
    | unknown _ _ => rfl

/-- A parsed prefix of a known family has a copy. -/
theorem ParsedPrefix.known {off afi len : Nat} {pfx : Prefix}
    (h : ParsedPrefix pkt off afi len pfx) (family : afi = lispAfiIpv4 ∨ afi = lispAfiIpv6)
    : (refPrefix pfx).isSome := by
  cases h with
  | ipv4 _ _ => rfl
  | ipv6 _ _ => rfl
  | unknown not4 not6 => exact absurd family (not_or.mpr ⟨not4, not6⟩)

end

/-- A record's prefix, with its fields inside what is readable. -/
theorem recordPrefix_eq_ok {pkt : List Byte} {record : Nat} {pfx : Prefix}
    : recordPrefix pkt record = .ok pfx
      ↔ record + 12 ≤ pkt.length
        ∧ ParsedPrefix pkt (record + 12) (recordAfi pkt record) (recordMaskLen pkt record) pfx := by
  simp only [recordPrefix, bind_eq_ok, rd_eq_ok, rd16_eq_ok, addrToPrefix_eq_ok]
  constructor
  · rintro ⟨_, ⟨inside, rfl⟩, _, ⟨_, rfl⟩, parsed⟩
    exact ⟨inside, parsed⟩
  · rintro ⟨inside, parsed⟩
    exact ⟨_, ⟨inside, rfl⟩, _, ⟨by omega, rfl⟩, parsed⟩

/-- The prefix of a record with a valid EID is valid. -/
theorem ValidEid.prefix_valid {pkt : List Byte} {record : Nat} {pfx : Prefix}
    (h : ValidEid pkt record) (parsed : recordPrefix pkt record = .ok pfx)
    : pfx.Valid := by
  obtain ⟨_, parsed⟩ := recordPrefix_eq_ok.mp parsed
  rcases h with ⟨afi, short⟩ | ⟨afi, short⟩
  · rw [afi] at parsed
    cases parsed with
    | ipv4 _ _ => exact Or.inl ⟨rfl, short⟩
    | ipv6 known _ => cases known
    | unknown not4 _ => exact absurd rfl not4
  · rw [afi] at parsed
    cases parsed with
    | ipv4 known _ => cases known
    | ipv6 _ _ => exact Or.inr ⟨rfl, short⟩
    | unknown _ not6 => exact absurd rfl not6

-----------------------------------------------------------------------------------------
-- The selection loop
-----------------------------------------------------------------------------------------

section

variable {pkt : List Byte}

/-- The locator's fixed part is readable. -/
abbrev LocatorInside (pkt : List Byte) (lisploc : Nat) : Prop := lisploc + 8 ≤ pkt.length

/-- What holds of the first locator and of each, holds of the selected one. -/
theorem EachLocator.selected {p : Nat → Prop} {n lisploc tmplisploc : Nat} (first : p lisploc)
    (h : EachLocator pkt p n tmplisploc)
    : p (selectedLocator pkt n lisploc tmplisploc) := by
  induction n generalizing lisploc tmplisploc with
  | zero => exact first
  | succ n ih =>
      refine ih ?_ h.2
      split
      · exact h.1
      · exact first

/-- The loop computes the selected locator and the end of the locators, where each is
readable; by induction on the locators.
-/
theorem selectLocator_eq_ok {n lisploc tmplisploc selected next : Nat}
    : selectLocator pkt n lisploc tmplisploc = .ok (selected, next)
      ↔ (n = 0 ∨ lisploc < pkt.length)
        ∧ EachLocator pkt (LocatorInside pkt) n tmplisploc
        ∧ selected = selectedLocator pkt n lisploc tmplisploc
        ∧ next = locatorsEnd pkt n tmplisploc := by
  induction n generalizing lisploc tmplisploc with
  | zero =>
      simp only [selectLocator, EachLocator, selectedLocator, locatorsEnd, Except.ok.injEq,
        Prod.mk.injEq, true_or, true_and]
      exact and_congr eq_comm eq_comm
  | succ n ih =>
      simp only [selectLocator, bind_eq_ok, rd_eq_ok, rd16_eq_ok, ih, EachLocator,
        selectedLocator, locatorsEnd]
      constructor
      · rintro ⟨_, ⟨here, rfl⟩, _, ⟨there, rfl⟩, _, ⟨inside, rfl⟩, _, each, rfl, rfl⟩
        exact ⟨Or.inr here, ⟨by omega, each⟩, rfl, rfl⟩
      · rintro ⟨some, ⟨inside, each⟩, rfl, rfl⟩
        have here : lisploc < pkt.length := by
          rcases some with none | here
          · cases none
          · exact here
        have there : tmplisploc < pkt.length := by omega
        refine ⟨_, ⟨here, rfl⟩, _, ⟨there, rfl⟩, _, ⟨by omega, rfl⟩, Or.inr ?_, each, rfl, rfl⟩
        split <;> assumption

/-- The loop reads each locator's fixed part. -/
theorem inside_selectLocator {n lisploc tmplisploc : Nat} (here : lisploc < pkt.length)
    : Inside (selectLocator pkt n lisploc tmplisploc)
      ↔ EachLocator pkt (LocatorInside pkt) n tmplisploc := by
  constructor
  · intro h
    induction n generalizing lisploc tmplisploc with
    | zero => trivial
    | succ n ih =>
        simp only [selectLocator, inside_bind, inside_rd, inside_rd16, rd_eq_ok, rd16_eq_ok] at h
        obtain ⟨_, h⟩ := h
        obtain ⟨there, h⟩ := h _ ⟨here, rfl⟩
        obtain ⟨inside, h⟩ := h _ ⟨there, rfl⟩
        refine ⟨by omega, ih ?_ (h _ ⟨inside, rfl⟩)⟩
        split <;> assumption
  · intro h
    rw [selectLocator_eq_ok.mpr ⟨Or.inr here, h, rfl, rfl⟩]
    exact inside_ok _

end

end Lixy
