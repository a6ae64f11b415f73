import Lixy.Messages.ReadBounds

/-! When `process_lisp_map_request` returns, and when it asks for the same answer to two
Map-Requests: what it takes from each are the flag, the nonce and two addresses.
-/

namespace Lixy

open ByteStrings

/-- The request is processed to its end: its first byte is there and, for a probe, the record
found with the address in it.
-/
def RequestReturns (pkt : List Byte) : Prop :=
  0 < pkt.length
    ∧ ((byteAt pkt 0).getLsbD 1 = true
      → requestRecord pkt + 4 + addrLen (requestAfi pkt) ≤ pkt.length)

/-- The bytes of an address, as many as its AFI tells. -/
def addrBytes (pkt : List Byte) (off afi : Nat) : List Byte := (pkt.drop off).take (addrLen afi)

/-- Two addresses are of one family and have the same bytes. -/
def SameAddress (pkt : List Byte) (off afi : Nat) (pkt' : List Byte) (off' afi' : Nat) : Prop :=
  lispafiToAf afi = lispafiToAf afi' ∧ addrBytes pkt off afi = addrBytes pkt' off' afi'

/-- Two requests have the probe flag both or neither, and as probes the same nonce, source EID
and prefix in the record found.
-/
def SameRequest (pkt pkt' : List Byte) : Prop :=
  (byteAt pkt 0).getLsbD 1 = (byteAt pkt' 0).getLsbD 1
    ∧ ((byteAt pkt 0).getLsbD 1 = true
      → (pkt.drop 4).take 8 = (pkt'.drop 4).take 8
        ∧ SameAddress pkt 14 (sourceAfi pkt) pkt' 14 (sourceAfi pkt')
        ∧ SameAddress pkt (requestRecord pkt + 4) (requestAfi pkt)
            pkt' (requestRecord pkt' + 4) (requestAfi pkt')
        ∧ (requestAfi pkt = lispAfiIpv4 ∨ requestAfi pkt = lispAfiIpv6
          → requestMaskLen pkt = requestMaskLen pkt'))

section

variable {pkt pkt' : List Byte} {off off' afi afi' len len' : Nat}

-----------------------------------------------------------------------------------------
-- Addresses
-----------------------------------------------------------------------------------------

theorem slice_toList {n : Nat} {bs : Bytes n} (h : slice pkt off n = some bs)
    : bs.toList = (pkt.drop off).take n := by
  unfold slice at h
  split at h
  · obtain rfl := Option.some.inj h
    rfl
  · cases h

/-- What lies at a place of a message, by the AFI in front of it. -/
inductive AddressAt (pkt : List Byte) (off afi : Nat) : AfiAddress → Prop
  | ipv4 {addr : Bytes 4} (known : afi = lispAfiIpv4) (bytes : slice pkt off 4 = some addr)
      : AddressAt pkt off afi (.ipv4 addr)
  | ipv6 {addr : Bytes 16} (known : afi = lispAfiIpv6) (bytes : slice pkt off 16 = some addr)
      : AddressAt pkt off afi (.ipv6 addr)
  | unknown (not4 : afi ≠ lispAfiIpv4) (not6 : afi ≠ lispAfiIpv6)
      : AddressAt pkt off afi .none

namespace AfiAddress

/-- The family of an address. -/
def af : AfiAddress → Int
  | none => -1
  | ipv4 _ => afInet
  | ipv6 _ => afInet6

/-- The address itself. -/
def octets : AfiAddress → List Byte
  | none => []
  | ipv4 addr => addr.toList
  | ipv6 addr => addr.toList

/-- A zeroed `struct sockaddr_storage` with the family and the address. -/
def sockaddr : AfiAddress → SockaddrStorage
  | none => { SockaddrStorage.zero with family := 65535 }
  | ipv4 addr => { SockaddrStorage.zero with family := afInet, sinAddr := addr }
  | ipv6 addr => { SockaddrStorage.zero with family := afInet6, sin6Addr := addr }

/-- The prefix of that length of an address; none has the zeroed one. -/
def asPrefix (len : Nat) : AfiAddress → Prefix
  | none => .zero
  | ipv4 addr => { family := afInet, bitlen := len, refCount := 0, add := setSin addr (zeros 16) }
  | ipv6 addr => { family := afInet6, bitlen := len, refCount := 0, add := addr }

theorem eq_iff {a a' : AfiAddress} : a = a' ↔ a.af = a'.af ∧ a.octets = a'.octets := by
  constructor
  · rintro rfl
    exact ⟨rfl, rfl⟩
  · rintro ⟨families, bytes⟩
    cases a with
    | none => cases a' <;> first | rfl | cases families
    | ipv4 addr =>
        cases a' with
        | ipv4 addr' => exact congrArg ipv4 (List.Vector.eq _ _ bytes)
        | none | ipv6 _ => cases families
    | ipv6 addr =>
        cases a' with
        | ipv6 addr' => exact congrArg ipv6 (List.Vector.eq _ _ bytes)
        | none | ipv4 _ => cases families

theorem sockaddr_inj {a a' : AfiAddress} : a.sockaddr = a'.sockaddr ↔ a = a' := by
  constructor
  · intro same
    have families := congrArg SockaddrStorage.family same
    cases a with
    | none => cases a' <;> first | rfl | cases families
    | ipv4 addr =>
        cases a' with
        | ipv4 addr' => exact congrArg ipv4 (congrArg SockaddrStorage.sinAddr same)
        | none | ipv6 _ => cases families
    | ipv6 addr =>
        cases a' with
        | ipv6 addr' => exact congrArg ipv6 (congrArg SockaddrStorage.sin6Addr same)
        | none | ipv4 _ => cases families
  · rintro rfl
    rfl

/-- Prefixes are the same when the addresses are, and for a known family the lengths. -/
theorem asPrefix_eq_iff {len len' : Nat} {a a' : AfiAddress}
    : a.asPrefix len = a'.asPrefix len' ↔ a = a' ∧ (a ≠ none → len = len') := by
  constructor
  · intro same
    have families := congrArg Prefix.family same
    cases a with
    | none => cases a' <;> first | exact ⟨rfl, absurd rfl⟩ | cases families
    | ipv4 addr =>
        cases a' with
        | ipv4 addr' =>
            have addrs := congrArg (sin ∘ Prefix.add) same
            simp only [asPrefix, Function.comp_apply, sin_setSin] at addrs
            exact ⟨congrArg ipv4 addrs, fun _ => congrArg Prefix.bitlen same⟩
        | none | ipv6 _ => cases families
    | ipv6 addr =>
        cases a' with
        | ipv6 addr' =>
            exact ⟨congrArg ipv6 (congrArg Prefix.add same), fun _ => congrArg Prefix.bitlen same⟩
        | none | ipv4 _ => cases families
  · rintro ⟨rfl, lengths⟩
    cases a with
    | none => rfl
    | ipv4 addr => rw [lengths nofun]
    | ipv6 addr => rw [lengths nofun]

end AfiAddress

namespace AddressAt

variable {a a' : AfiAddress}

theorem lispafiToAf_eq (h : AddressAt pkt off afi a) : lispafiToAf afi = a.af := by
  cases h with
  | ipv4 known _ => rw [known]; rfl
  | ipv6 known _ => rw [known]; rfl
  | unknown not4 not6 => exact lispafiToAf_other not4 not6

theorem addrBytes_eq (h : AddressAt pkt off afi a) : addrBytes pkt off afi = a.octets := by
  cases h with
  | ipv4 known bytes => rw [known]; exact (slice_toList bytes).symm
  | ipv6 known bytes => rw [known]; exact (slice_toList bytes).symm
  | unknown not4 not6 => rw [addrBytes, addrLen, if_neg not4, if_neg not6, List.take_zero]; rfl

theorem sameAddress_iff (h : AddressAt pkt off afi a) (h' : AddressAt pkt' off' afi' a')
    : SameAddress pkt off afi pkt' off' afi' ↔ a = a' := by
  rw [SameAddress, h.lispafiToAf_eq, h'.lispafiToAf_eq, h.addrBytes_eq, h'.addrBytes_eq,
    AfiAddress.eq_iff]

theorem ne_none_iff (h : AddressAt pkt off afi a)
    : a ≠ .none ↔ afi = lispAfiIpv4 ∨ afi = lispAfiIpv6 := by
  cases h with
  | ipv4 known _ => exact iff_of_true nofun (Or.inl known)
  | ipv6 known _ => exact iff_of_true nofun (Or.inr known)
  | unknown not4 not6 => exact iff_of_false (absurd rfl) (not_or.mpr ⟨not4, not6⟩)

end AddressAt

/-- What `FILL_SOCKADDR` makes of a zeroed address that has the family already. -/
inductive FilledSockaddr (pkt : List Byte) (off afi : Nat) : SockaddrStorage → Prop
  | ipv4 {addr : Bytes 4} (known : afi = lispAfiIpv4) (bytes : slice pkt off 4 = some addr)
      : FilledSockaddr pkt off afi { SockaddrStorage.zero with family := afInet, sinAddr := addr }
  | ipv6 {addr : Bytes 16} (known : afi = lispAfiIpv6) (bytes : slice pkt off 16 = some addr)
      : FilledSockaddr pkt off afi
          { SockaddrStorage.zero with family := afInet6, sin6Addr := addr }
  | unknown (not4 : afi ≠ lispAfiIpv4) (not6 : afi ≠ lispAfiIpv6)
      : FilledSockaddr pkt off afi { SockaddrStorage.zero with family := 65535 }

theorem filledSockaddr_of_done {sa : SockaddrStorage}
    (done : fillSockaddr (lispafiToAf afi)
      { SockaddrStorage.zero with family := ((lispafiToAf afi) % 65536).toNat } pkt off = .ok sa)
    : FilledSockaddr pkt off afi sa := by
  by_cases h₁ : afi = lispAfiIpv4
  · subst h₁
    simp only [fillSockaddr, lispafiToAf_ipv4, if_pos, bind_eq_ok, rdBytes_eq_ok, pure_eq_ok] at done
    obtain ⟨addr, bytes, rfl⟩ := done
    exact .ipv4 rfl bytes
  · by_cases h₂ : afi = lispAfiIpv6
    · subst h₂
      have other : ¬ ((afInet6 : Nat) : Int) = (afInet : Nat) := by decide
      simp only [fillSockaddr, lispafiToAf_ipv6, other, if_false, if_pos, bind_eq_ok,
        rdBytes_eq_ok, pure_eq_ok] at done
      obtain ⟨addr, bytes, rfl⟩ := done
      exact .ipv6 rfl bytes
    · rw [fillSockaddr, lispafiToAf_other h₁ h₂, if_neg (by decide), if_neg (by decide)] at done
      obtain rfl := Except.ok.inj done
      exact .unknown h₁ h₂

theorem FilledSockaddr.exists_address {sa : SockaddrStorage} (h : FilledSockaddr pkt off afi sa)
    : ∃ a, AddressAt pkt off afi a ∧ sa = a.sockaddr := by
  cases h with
  | ipv4 known bytes => exact ⟨_, .ipv4 known bytes, rfl⟩
  | ipv6 known bytes => exact ⟨_, .ipv6 known bytes, rfl⟩
  | unknown not4 not6 => exact ⟨_, .unknown not4 not6, rfl⟩

theorem ParsedPrefix.exists_address {pfx : Prefix} (h : ParsedPrefix pkt off afi len pfx)
    : ∃ a, AddressAt pkt off afi a ∧ pfx = a.asPrefix len := by
  cases h with
  | ipv4 known bytes => exact ⟨_, .ipv4 known bytes, rfl⟩
  | ipv6 known bytes => exact ⟨_, .ipv6 known bytes, rfl⟩
  | unknown not4 not6 => exact ⟨_, .unknown not4 not6, rfl⟩

/-- Filled addresses are the same exactly when the ones they were filled from are. -/
theorem FilledSockaddr.eq_iff {sa sa' : SockaddrStorage} (h : FilledSockaddr pkt off afi sa)
    (h' : FilledSockaddr pkt' off' afi' sa')
    : sa = sa' ↔ SameAddress pkt off afi pkt' off' afi' := by
  obtain ⟨a, lies, rfl⟩ := h.exists_address
  obtain ⟨a', lies', rfl⟩ := h'.exists_address
  rw [lies.sameAddress_iff lies', AfiAddress.sockaddr_inj]

/-- Parsed prefixes are the same exactly when their addresses are, and for a known family
their lengths.
-/
theorem ParsedPrefix.eq_iff {pfx pfx' : Prefix} (h : ParsedPrefix pkt off afi len pfx)
    (h' : ParsedPrefix pkt' off' afi' len' pfx')
    : pfx = pfx' ↔ SameAddress pkt off afi pkt' off' afi'
        ∧ (afi = lispAfiIpv4 ∨ afi = lispAfiIpv6 → len = len') := by
  obtain ⟨a, lies, rfl⟩ := h.exists_address
  obtain ⟨a', lies', rfl⟩ := h'.exists_address
  rw [AfiAddress.asPrefix_eq_iff, lies.sameAddress_iff lies', lies.ne_none_iff]

-----------------------------------------------------------------------------------------
-- Requests
-----------------------------------------------------------------------------------------

/-- Without the probe flag a request asks for nothing. -/
theorem processLispMapRequest_unset (there : 0 < pkt.length)
    (unset : (byteAt pkt 0).getLsbD 1 = false)
    : processLispMapRequest pkt = .ok none := by
  refine bind_eq_ok.mpr ⟨_, rd_eq_ok.mpr ⟨there, rfl⟩, ?_⟩
  rw [if_pos unset]
  rfl

/-- A probe asks for an answer for the prefix of the record found, with its nonce, to its
source EID.
-/
theorem processLispMapRequest_set (returns : RequestReturns pkt)
    (probe : (byteAt pkt 0).getLsbD 1 = true)
    : ∃ pfx nonce etrAddr, processLispMapRequest pkt = .ok (some (pfx, nonce, etrAddr))
        ∧ ParsedPrefix pkt (requestRecord pkt + 4) (requestAfi pkt) (requestMaskLen pkt) pfx
        ∧ nonce = (pkt.drop 4).take 8
        ∧ FilledSockaddr pkt 14 (sourceAfi pkt) etrAddr := by
  have fits := returns.2 probe
  obtain ⟨nonce, etrAddr, nonce_eq, fill, request⟩ :=
    processLispMapRequest_probe probe (by omega)
  obtain ⟨pfx, parsed⟩ := @addrToPrefix_total pkt _ _ (requestMaskLen pkt) fits
  refine ⟨pfx, nonce.toList, etrAddr, ?_, addrToPrefix_eq_ok.mp parsed,
    slice_toList (rdBytes_eq_ok.mp nonce_eq), filledSockaddr_of_done fill⟩
  rw [request, parsed]
  rfl

/-- A request is processed exactly when its reads are inside. -/
theorem processLispMapRequest_returns_iff
    : (∃ call, processLispMapRequest pkt = .ok call) ↔ RequestReturns pkt := by
  constructor
  · rintro ⟨call, done⟩
    refine inside_processLispMapRequest.mp ?_
    rw [done]
    exact inside_ok _
  · intro returns
    cases probe : (byteAt pkt 0).getLsbD 1 with
    | false => exact ⟨none, processLispMapRequest_unset returns.1 probe⟩
    | true =>
        obtain ⟨pfx, nonce, etrAddr, done, _⟩ := processLispMapRequest_set returns probe
        exact ⟨_, done⟩

/-- Two requests that are processed ask for the same exactly when what is taken from them is
the same.
-/
theorem processLispMapRequest_eq_iff (returns : RequestReturns pkt)
    (returns' : RequestReturns pkt')
    : processLispMapRequest pkt = processLispMapRequest pkt' ↔ SameRequest pkt pkt' := by
  unfold SameRequest
  cases probe : (byteAt pkt 0).getLsbD 1 with
  | false =>
      rw [processLispMapRequest_unset returns.1 probe]
      cases probe' : (byteAt pkt' 0).getLsbD 1 with
      | false =>
          rw [processLispMapRequest_unset returns'.1 probe']
          exact iff_of_true rfl ⟨rfl, nofun⟩
      | true =>
          obtain ⟨_, _, _, done, _⟩ := processLispMapRequest_set returns' probe'
          rw [done]
          exact iff_of_false nofun (fun same => nomatch same.1)
  | true =>
      obtain ⟨pfx, nonce, etrAddr, done, parsed, rfl, filled⟩ :=
        processLispMapRequest_set returns probe
      rw [done]
      cases probe' : (byteAt pkt' 0).getLsbD 1 with
      | false =>
          rw [processLispMapRequest_unset returns'.1 probe']
          exact iff_of_false nofun (fun same => nomatch same.1)
      | true =>
          obtain ⟨pfx', nonce', etrAddr', done', parsed', rfl, filled'⟩ :=
            processLispMapRequest_set returns' probe'
          have same {a a' : Prefix × List Byte × SockaddrStorage}
              : (Except.ok (some a) : Except Fault (Option (Prefix × List Byte × SockaddrStorage)))
                  = .ok (some a') ↔ a.1 = a'.1 ∧ a.2.1 = a'.2.1 ∧ a.2.2 = a'.2.2 := by
            rw [Except.ok.injEq, Option.some.injEq, Prod.ext_iff, Prod.ext_iff]
          rw [done', same]
          constructor
          · rintro ⟨prefixes, nonces, sources⟩
            obtain ⟨addresses, lengths⟩ := (parsed.eq_iff parsed').mp prefixes
            exact ⟨rfl, fun _ => ⟨nonces, (filled.eq_iff filled').mp sources, addresses, lengths⟩⟩
          · rintro ⟨_, fields⟩
            obtain ⟨nonces, sources, addresses, lengths⟩ := fields rfl
            exact ⟨(parsed.eq_iff parsed').mpr ⟨addresses, lengths⟩, nonces,
              (filled.eq_iff filled').mpr sources⟩

end

end Lixy
