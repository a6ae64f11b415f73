import Lixy.Control.LocatorHistories
import Lixy.Control.MessageSplitting

/-! The texts of IPv4 addresses and prefixes: which of them `ascii2prefix` reads and what as, and
that an address that is printed in decimal octets is read back.
-/

namespace Lixy.Control

open ByteStrings

-----------------------------------------------------------------------------------------
-- Octets
-----------------------------------------------------------------------------------------

/-- A numeral up to 255. It may have leading zeros. -/
structure Octet extends Numeral where
  small : toNumeral.value ≤ 255

/-- The numbers that octets stand for. -/
def octetValues (fields : List Octet) : List Nat := fields.map fun field => field.value

/-- Reading the digits of a numeral one by one gives its number. -/
theorem Numeral.foldl_text (numeral : Numeral)
    : numeral.text.foldl (fun val c => val * 10 + digit c) 0 = numeral.value := by
  rw [foldl_digit, Nat.zero_mul, Nat.zero_add, value]

/-- Reading on never makes a number smaller. -/
theorem le_foldl_digit (text : List Byte) (val : Nat)
    : val ≤ text.foldl (fun val c => val * 10 + digit c) val := by
  rw [foldl_digit]
  exact Nat.le_add_right_of_le (Nat.le_mul_of_pos_right _ (Nat.pow_pos (by decide)))

/-- The digits ahead are read as one number, unless it gets past 255. By induction on the
digits: once past, it stays past.
-/
theorem octet_digits {text rest : List Byte} {val : Nat}
    (isDigit : ∀ c ∈ text, isDigit c = true) (ends : Control.isDigit (rest.headD 0) = false)
    (small : val ≤ 255)
    : octet (text ++ rest) val
      = if text.foldl (fun val c => val * 10 + digit c) val ≤ 255 then
          some (text.foldl (fun val c => val * 10 + digit c) val, rest)
        else
          none := by
  induction text generalizing val with
  | nil =>
      rw [List.nil_append, List.foldl_nil, if_pos small]
      cases rest with
      | nil => rfl
      | cons c rest =>
          have other : Control.isDigit c = false := ends
          rw [octet, if_neg (by simp [other])]
  | cons c text ih =>
      rw [List.cons_append, octet, if_pos (isDigit c (by simp)), List.foldl_cons]
      by_cases past : val * 10 + digit c > 255
      · have := le_foldl_digit text (val * 10 + digit c)
        rw [if_pos past, if_neg (by omega)]
      · rw [if_neg past, ih (fun c mem => isDigit c (List.mem_cons_of_mem _ mem)) (by omega)]

/-- An octet and what follows it are read apart. -/
theorem octet_text (field : Octet) {rest : List Byte} (ends : isDigit (rest.headD 0) = false)
    : octet (field.text ++ rest) 0 = some (field.value, rest) := by
  rw [octet_digits field.isDigit ends (by decide), field.foldl_text, if_pos field.small]

/-- What is read where a digit is ahead is an octet. -/
theorem octet_eq_some {str rest : List Byte} {val : Nat} (starts : isDigit (str.headD 0) = true)
    (read : octet str 0 = some (val, rest))
    : ∃ field : Octet, str = field.text ++ rest ∧ field.value = val
        ∧ isDigit (rest.headD 0) = false := by
  obtain ⟨text, back, rfl, isDigits, stops⟩ := exists_leading isDigit str
  have ends : isDigit (back.headD 0) = false := by
    cases back with
    | nil => rfl
    | cons c back => exact stops c rfl
  have nonempty : text ≠ [] := by
    rintro rfl
    rw [List.nil_append, ends] at starts
    cases starts
  let numeral : Numeral := ⟨text, nonempty, isDigits⟩
  have value : text.foldl (fun val c => val * 10 + digit c) 0 = numeral.value :=
    numeral.foldl_text
  rw [octet_digits isDigits ends (Nat.zero_le 255), value] at read
  split at read
  · next small =>
      obtain ⟨rfl, rfl⟩ := Prod.mk.inj (Option.some.inj read)
      exact ⟨⟨numeral, small⟩, rfl, rfl, ends⟩
  · cases read

-----------------------------------------------------------------------------------------
-- Octets with dots between them
-----------------------------------------------------------------------------------------

/-- Octets with dots between them. -/
def dotted (fields : List Octet) : List Byte :=
  [0x2e].intercalate (fields.map fun field => field.text)

theorem dotted_cons_cons (field next : Octet) (rest : List Octet)
    : dotted (field :: next :: rest) = field.text ++ 0x2e :: dotted (next :: rest) := by
  simp [dotted, List.intercalate]

theorem dotted_singleton (field : Octet) : dotted [field] = field.text := by
  simp [dotted, List.intercalate]

/-- A numeral starts with a digit, whatever follows it. -/
theorem Numeral.starts (numeral : Numeral) (rest : List Byte)
    : Control.isDigit ((numeral.text ++ rest).headD 0) = true := by
  obtain ⟨c, text, text_eq⟩ := List.exists_cons_of_ne_nil numeral.nonempty
  rw [text_eq, List.cons_append, List.headD_cons]
  exact numeral.isDigit c (by simp [text_eq])

/-- The loop of `my_inet_pton` reads the dotted texts of up to so many octets, and no others.
By induction on how many there may be.
-/
theorem octets_eq_some {n : Nat} {str : List Byte} {vals : List Nat}
    : octets n str = some vals
      ↔ ∃ fields : List Octet, fields ≠ [] ∧ fields.length ≤ n ∧ dotted fields = str
          ∧ octetValues fields = vals := by
  induction n generalizing str vals with
  | zero =>
      rw [octets]
      refine iff_of_false nofun ?_
      rintro ⟨fields, nonempty, none, _⟩
      exact nonempty (List.length_eq_zero_iff.mp (Nat.le_zero.mp none))
  | succ n ih =>
      constructor
      · intro read
        rw [octets] at read
        split at read
        · cases read
        · next starts =>
            rw [Bool.not_eq_false] at starts
            split at read
            · cases read
            · next val last =>
                obtain ⟨field, rfl, rfl, _⟩ := octet_eq_some starts last
                obtain rfl := Option.some.inj read
                exact ⟨[field], nofun, by simp, by simp [dotted_singleton], rfl⟩
            · next val c rest more =>
                obtain ⟨field, rfl, rfl, _⟩ := octet_eq_some starts more
                split at read
                · next dot =>
                    subst dot
                    obtain ⟨vals, others, rfl⟩ := Option.map_eq_some_iff.mp read
                    obtain ⟨fields, nonempty, few, rfl, rfl⟩ := ih.mp others
                    obtain ⟨next, fields, rfl⟩ := List.exists_cons_of_ne_nil nonempty
                    exact ⟨field :: next :: fields, nofun, Nat.succ_le_succ few,
                      dotted_cons_cons _ _ _, rfl⟩
                · cases read
      · rintro ⟨fields, nonempty, few, rfl, rfl⟩
        obtain ⟨field, fields, rfl⟩ := List.exists_cons_of_ne_nil nonempty
        cases fields with
        | nil =>
            have read := @octet_text field [] rfl
            rw [List.append_nil] at read
            have starts := field.starts []
            rw [List.append_nil] at starts
            rw [dotted_singleton, octets, if_neg (by rw [starts]; decide), read]
            rfl
        | cons next fields =>
            have others : octets n (dotted (next :: fields))
                = some (octetValues (next :: fields)) :=
              ih.mpr ⟨next :: fields, nofun, Nat.le_of_succ_le_succ few, rfl, rfl⟩
            rw [dotted_cons_cons, octets, if_neg (by rw [field.starts]; decide),
              octet_text field rfl]
            dsimp only
            rw [if_pos rfl, others]
            rfl

/-- A dotted text has nothing but digits and dots. -/
theorem mem_dotted {fields : List Octet} {c : Byte} (mem : c ∈ dotted fields)
    : isDigit c = true ∨ c = 0x2e := by
  induction fields with
  | nil => cases mem
  | cons field rest ih =>
      cases rest with
      | nil =>
          rw [dotted_singleton] at mem
          exact .inl (field.isDigit c mem)
      | cons next rest =>
          rw [dotted_cons_cons] at mem
          rcases List.mem_append.mp mem with mem | mem
          · exact .inl (field.isDigit c mem)
          · exact (List.mem_cons.mp mem).elim .inr ih

theorem slash_notMem_dotted (fields : List Octet) : (0x2f : Byte) ∉ dotted fields := by
  intro mem
  rcases mem_dotted mem with digit | dot
  · cases digit
  · cases dot

-----------------------------------------------------------------------------------------
-- Prefixes
-----------------------------------------------------------------------------------------

/-- The length that follows a slash, as a `u_long`. -/
def lengthText (len : List Byte) : Nat := (atol len % 2 ^ 64).toNat

section

variable {inetPton6 : List Byte → Option (Bytes 16)} {family : Nat} {address len text : List Byte}

/-- A text without slash is an address, for the family's whole length. -/
theorem ascii2prefix_address (noSlash : (0x2f : Byte) ∉ address)
    : ascii2prefix inetPton6 family address
      = .ok ((if family = afInet then myInetPton address else inetPton6 address).bind
          fun add => Lixy.ascii2prefix family add none) := by
  have whole : address.takeWhile (· ≠ 0x2f) = address :=
    List.takeWhile_eq_self_iff.mpr fun c mem => decide_eq_true fun slash => noSlash (slash ▸ mem)
  rw [ ascii2prefix, bitlenOf, if_pos noSlash, whole]
  rfl

/-- A text with a slash is an address and a length; an address as long as the buffer that it is
copied to fails the assertion.
-/
theorem ascii2prefix_slash (noSlash : (0x2f : Byte) ∉ address)
    : ascii2prefix inetPton6 family (address ++ 0x2f :: len)
      = if address.length < 1024 then
          .ok ((if family = afInet then myInetPton address else inetPton6 address).bind
            fun add => Lixy.ascii2prefix family add (some (lengthText len)))
        else
          .error (.assertFailed .stringFits) := by
  have notSlash : ∀ c ∈ address, decide (c ≠ 0x2f) = true :=
    fun c mem => decide_eq_true fun slash => noSlash (slash ▸ mem)
  have front : (address ++ 0x2f :: len).takeWhile (· ≠ 0x2f) = address := by
    rw [List.takeWhile_append_of_pos notSlash]
    simp
  have behind : (address ++ 0x2f :: len).drop (address.length + 1) = len := by
    rw [← List.drop_drop, List.drop_left]
    rfl
  rw [ ascii2prefix, bitlenOf, if_neg (by simp), front]
  dsimp only
  rw [behind]
  split <;> rfl

/-- A text either has no slash, or splits at its first one. -/
theorem exists_slash (text : List Byte)
    : (0x2f : Byte) ∉ text
      ∨ ∃ address len, text = address ++ 0x2f :: len ∧ (0x2f : Byte) ∉ address := by
  obtain ⟨address, back, rfl, others, stops⟩ := exists_leading (fun c : Byte => c ≠ 0x2f) text
  have noSlash : (0x2f : Byte) ∉ address := fun mem => of_decide_eq_true (others _ mem) rfl
  cases back with
  | nil => exact .inl (by simpa using noSlash)
  | cons c len =>
      obtain rfl : c = 0x2f := not_not.mp (of_decide_eq_false (stops c rfl))
      exact .inr ⟨address, len, rfl, noSlash⟩

/-- The address that octets stand for; missing ones are 0. -/
def octetAddr (fields : List Octet) : Bytes 4 :=
  ⟨((octetValues fields).map (BitVec.ofNat 8) ++ List.replicate 4 0).take 4, by simp⟩

/-- The prefix of so many bits that octets stand for. -/
def octetPrefix (fields : List Octet) (bitlen : Nat) : Prefix :=
  { family := afInet, bitlen, refCount := 1, add := setSin (octetAddr fields) (zeros 16) }

/-- A text is an IPv4 address where it is one to four octets with dots between them. -/
theorem myInetPton_eq_some {add : Bytes 16}
    : myInetPton address = some add
      ↔ ∃ fields : List Octet, fields ≠ [] ∧ fields.length ≤ 4 ∧ address = dotted fields
          ∧ add = setSin (octetAddr fields) (zeros 16) := by
  have padded {vals : List Nat} (few : vals.length ≤ 4)
      : (vals.map (BitVec.ofNat 8) ++ List.replicate 16 0).take 16
        = (vals.map (BitVec.ofNat 8) ++ List.replicate 4 0).take 4 ++ List.replicate 12 0 := by
    have short : (vals.map (BitVec.ofNat 8)).length ≤ 4 := by simpa using few
    have rest : 16 - (vals.map (BitVec.ofNat 8)).length
        = (4 - (vals.map (BitVec.ofNat 8)).length) + 12 := by omega
    rw [List.take_append, List.take_append, List.take_of_length_le (by omega),
      List.take_of_length_le short, List.take_replicate, List.take_replicate,
      min_eq_left (Nat.sub_le _ _), min_eq_left (Nat.sub_le _ _), rest, List.append_assoc,
      List.replicate_append_replicate]
  have union (fields : List Octet) (few : fields.length ≤ 4) (add : Bytes 16)
      : add.toList = ((octetValues fields).map (BitVec.ofNat 8) ++ List.replicate 16 0).take 16
        ↔ add = setSin (octetAddr fields) (zeros 16) := by
    rw [padded (by simpa [octetValues] using few)]
    exact ⟨fun same => List.Vector.eq _ _ same, fun same => same ▸ rfl⟩
  constructor
  · intro parsed
    obtain ⟨vals, read, rfl⟩ := Option.map_eq_some_iff.mp parsed
    obtain ⟨fields, nonempty, few, rfl, rfl⟩ := octets_eq_some.mp read
    exact ⟨fields, nonempty, few, rfl, (union fields few _).mp rfl⟩
  · rintro ⟨fields, nonempty, few, rfl, rfl⟩
    exact Option.map_eq_some_iff.mpr ⟨_, octets_eq_some.mpr ⟨fields, nonempty, few, rfl, rfl⟩,
      List.Vector.eq _ _ ((union fields few _).mpr rfl).symm⟩

/-- An IPv4 text is a prefix where what is in front of its first slash, or all of it, is one to
four octets with dots between them. What is behind the slash is read as `atol` reads it and
bounded by 32; without a slash the prefix is one address.
-/
theorem ascii2prefix_inet_iff {pfx : Prefix}
    : ascii2prefix inetPton6 afInet text = .ok (some pfx)
      ↔ ∃ fields : List Octet, fields ≠ [] ∧ fields.length ≤ 4
          ∧ (text = dotted fields ∧ pfx = octetPrefix fields 32
            ∨ ∃ len, text = dotted fields ++ 0x2f :: len ∧ (dotted fields).length < 1024
                ∧ pfx = octetPrefix fields (min (lengthText len) 32)) := by
  have prefixed (fields : List Octet) (bitlen : Option Nat)
      : Lixy.ascii2prefix afInet (setSin (octetAddr fields) (zeros 16)) bitlen
        = some (octetPrefix fields (min (bitlen.getD 32) 32)) := by
    rw [ Lixy.ascii2prefix, if_pos rfl, newPrefix, if_pos rfl, sin_setSin, octetPrefix]
  constructor
  · intro read
    rcases exists_slash text with noSlash | ⟨address, len, rfl, noSlash⟩
    · rw [ ascii2prefix_address noSlash, if_pos rfl] at read
      obtain ⟨add, parsed, made⟩ := Option.bind_eq_some_iff.mp (Except.ok.inj read)
      obtain ⟨fields, nonempty, few, rfl, rfl⟩ := myInetPton_eq_some.mp parsed
      rw [prefixed] at made
      exact ⟨fields, nonempty, few, .inl ⟨rfl, (Option.some.inj made).symm⟩⟩
    · rw [ ascii2prefix_slash noSlash] at read
      split at read
      · next fits =>
          rw [if_pos rfl] at read
          obtain ⟨add, parsed, made⟩ := Option.bind_eq_some_iff.mp (Except.ok.inj read)
          obtain ⟨fields, nonempty, few, rfl, rfl⟩ := myInetPton_eq_some.mp parsed
          rw [prefixed] at made
          exact ⟨fields, nonempty, few, .inr ⟨len, rfl, fits, (Option.some.inj made).symm⟩⟩
      · cases read
  · rintro ⟨fields, nonempty, few, given⟩
    have parsed := myInetPton_eq_some.mpr ⟨fields, nonempty, few, rfl, rfl⟩
    rcases given with ⟨rfl, rfl⟩ | ⟨len, rfl, fits, rfl⟩
    · rw [ ascii2prefix_address (slash_notMem_dotted fields), if_pos rfl, parsed, Option.bind_some,
        prefixed]
      rfl
    · rw [ ascii2prefix_slash (slash_notMem_dotted fields), if_pos fits, if_pos rfl, parsed,
        Option.bind_some, prefixed]
      rfl

end

-----------------------------------------------------------------------------------------
-- Printing
-----------------------------------------------------------------------------------------

/-- `%d` of a number -/
def decimal (n : Nat) : List Byte := (Nat.toDigits 10 n).map fun c => BitVec.ofNat 8 c.toNat

/-- The digit for a number below ten. -/
def digitByte (d : Nat) : Byte := BitVec.ofNat 8 d.digitChar.toNat

theorem digitByte_spec {d : Nat} (small : d < 10)
    : isDigit (digitByte d) = true ∧ digit (digitByte d) = d := by
  have all : ∀ d < 10, isDigit (digitByte d) = true ∧ digit (digitByte d) = d := by decide
  exact all d small

/-- The last digit is printed behind the others. -/
theorem decimal_eq (n : Nat)
    : decimal n = (if n < 10 then [] else decimal (n / 10)) ++ [digitByte (n % 10)] := by
  rw [decimal, Nat.toDigits_eq_if (by decide)]
  split
  · next small => rw [Nat.mod_eq_of_lt small]; rfl
  · rw [List.map_append]; rfl

/-- The numeral that is printed for a number, by induction on its digits. -/
theorem isDigit_of_mem_decimal {n : Nat} {c : Byte} (mem : c ∈ decimal n) : isDigit c = true := by
  induction n using Nat.strong_induction_on with
  | _ n ih =>
      rw [decimal_eq] at mem
      rcases List.mem_append.mp mem with others | last
      · split at others
        · cases others
        · exact ih (n / 10) (by omega) others
      · rw [List.mem_singleton.mp last]
        exact (digitByte_spec (Nat.mod_lt n (by decide))).1

/-- The numeral that is printed for a number. -/
def decimalNumeral (n : Nat) : Numeral :=
  { text := decimal n
    nonempty := by rw [decimal_eq]; simp
    isDigit := fun _ => isDigit_of_mem_decimal }

/-- A printed number is read back, by induction on its digits. -/
theorem decimalNumeral_value (n : Nat) : (decimalNumeral n).value = n := by
  induction n using Nat.strong_induction_on with
  | _ n ih =>
      have last := (digitByte_spec (Nat.mod_lt n (by decide))).2
      rw [Numeral.value]
      change Nat.ofDigits 10 ((decimal n).reverse.map digit) = n
      rw [decimal_eq, List.reverse_append, List.reverse_singleton, List.singleton_append,
        List.map_cons, Nat.ofDigits_cons, last]
      split
      · simp
        omega
      · have rest : Nat.ofDigits 10 ((decimal (n / 10)).reverse.map digit) = n / 10 :=
          ih (n / 10) (by omega)
        rw [rest]
        omega

/-- `inet_ntop` for AF_INET -/
def inetNtop4 (addr : Bytes 4) : List Byte :=
  [0x2e].intercalate (addr.toList.map fun b => decimal b.toNat)

/-- The octets that are printed for an address. -/
def octetsOf (addr : Bytes 4) : List Octet :=
  addr.toList.map fun b =>
    ⟨decimalNumeral b.toNat, by rw [decimalNumeral_value]; exact Nat.le_of_lt_succ b.isLt⟩

theorem octetsOf_ne_nil (addr : Bytes 4) : octetsOf addr ≠ [] := by
  intro none
  have count := congrArg List.length none
  simp [octetsOf] at count

theorem dotted_octetsOf (addr : Bytes 4) : dotted (octetsOf addr) = inetNtop4 addr := by
  simp [dotted, octetsOf, inetNtop4, decimalNumeral, Function.comp_def]

/-- A printed address is read back. -/
theorem octetAddr_octetsOf (addr : Bytes 4) : octetAddr (octetsOf addr) = addr := by
  have values : (octetValues (octetsOf addr)).map (BitVec.ofNat 8) = addr.toList := by
    rw [octetValues, octetsOf, List.map_map, List.map_map]
    refine (List.map_congr_left fun b _ => ?_).trans (List.map_id _)
    simp [decimalNumeral_value]
  refine List.Vector.eq _ _ ?_
  change ((octetValues (octetsOf addr)).map (BitVec.ofNat 8) ++ List.replicate 4 0).take 4 = _
  rw [values, List.take_left' (by simp)]

end Lixy.Control
