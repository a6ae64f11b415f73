import Lixy.Daemon.EncapsulatedControl
import Lixy.Daemon.Origins
import Lixy.Messages.BufferBounds

/-! What a daemon's own messages are to a daemon that receives them: a Map-Reply has one mapping,
and a Map-Request or a Map-Register nothing.
-/

namespace Lixy

open ByteStrings

/-- The prefix that is parsed from a valid one has its key. -/
theorem ParsedFrom.key_eq {parsed pfx : Prefix} (h : ParsedFrom parsed pfx) (valid : pfx.Valid)
    : parsed.key = pfx.key := by
  have addr := h.addr
  rw [Prefix.key, Prefix.key, h.bitlen]
  rcases valid with ⟨inet, short⟩ | ⟨inet6, _⟩
  · rw [Prefix.addr, Prefix.addr, h.family, inet, familyAddr, familyAddr, if_pos rfl,
      if_pos rfl] at addr
    have same : sin parsed.add = sin pfx.add := List.Vector.eq _ _ (Option.some.inj addr)
    rw [← setSin_self parsed.add, ← setSin_self pfx.add, same]
    exact bits_setSin _ _ _ short
  · have other : afInet6 ≠ afInet := by decide
    rw [Prefix.addr, Prefix.addr, h.family, inet6, familyAddr, familyAddr, if_neg other,
      if_neg other, if_pos rfl, if_pos rfl] at addr
    rw [Option.some.inj addr]

section

variable {pkt : List Byte} {locTuple : ListT Locator} {pfx : Prefix} {nonce : Bytes 8}

/-- A mapping that a node's Map-Reply has is ACTIVE for the prefix, with a locator of the
answer.
-/
theorem mapReplyMessage_gives {len : Nat} {m : Mapping} (valid : pfx.Valid)
    (known : ∀ loc ∈ locTuple.nodes, loc.Known)
    (counted : locTuple.count.toNat % 256 = locTuple.nodes.length)
    (lies : LiesAt pkt 0 (mapReplyMessage locTuple pfx nonce))
    (gives : Event.Gives m (.message len pkt))
    : m.key = pfx.key ∧ m.state = .active
      ∧ ∃ loc ∈ locTuple.nodes, m.addr.family = loc.locAddr.family
          ∧ m.addr.addr = loc.locAddr.addr ∧ m.addr.port = lispDataPort := by
  rw [mapReplyMessage] at lies
  obtain ⟨front, items⟩ := lies.append
  obtain ⟨header, record⟩ := front.append
  rw [List.length_append, mapReplyHeader_length, Nat.zero_add] at items
  rw [mapReplyHeader_length, Nat.zero_add] at record
  -- one record
  have one : byteAt pkt 3 = 1 := by
    have byte := byteAt_of_liesAt header (i := 3) (by rw [mapReplyHeader_length]; decide)
    rwa [Nat.zero_add] at byte
  obtain ⟨_, k, lt, parsed, parses, key, given⟩ := gives
  rw [one] at lt
  obtain rfl : k = 0 := Nat.lt_one_iff.mp lt
  rw [show recordAt pkt 0 = 12 from rfl] at parses given
  obtain ⟨inside, count, locators, _, parsed', parses', origin⟩ := record_of_liesAt valid record
  obtain rfl := Except.ok.inj (parses.symm.trans parses')
  rw [counted] at count
  refine ⟨key.symm.trans (origin.key_eq valid), ?_⟩
  split at given
  · have act : recordAct pkt 12 = 0 := by
      obtain ⟨fixed, _⟩ := record.append
      have byte : byteAt pkt (12 + 6) = 0 :=
        byteAt_of_liesAt fixed (by rw [lispRecord_length]; decide)
      rw [recordAct, byte]
      rfl
    rw [act] at given
    rcases given with ⟨native, _⟩ | ⟨drop, _⟩
    · cases native
    · cases drop
  · next located =>
      obtain ⟨state, locator, decodes, addr⟩ := given
      obtain ⟨each, _⟩ := eachLocator_of_liesAt known (locators ▸ items)
      rw [← count] at each
      obtain ⟨loc, mem, there⟩ := each.recordSelected located
      obtain ⟨decoded, decodes', origin⟩ :=
        lispLocatorPktToLocator_of_liesAt (known loc mem) there
      obtain rfl := Except.ok.inj (decodes.symm.trans decodes')
      rw [addr]
      exact ⟨state, loc, mem, origin.family, origin.addr, origin.port⟩

end

-----------------------------------------------------------------------------------------
-- The types of the messages
-----------------------------------------------------------------------------------------

/-- A message that fits lies at the start of the receiver's buffer. -/
theorem readInto_liesAt {n : Nat} (buf : Bytes n) {m : List Byte} (fits : m.length ≤ n)
    : LiesAt (readInto buf m).toList 0 m := by
  refine ⟨[], buf.toList.drop m.length, ?_, rfl⟩
  change overlay buf.toList (m.take n) = _
  rw [List.take_of_length_le fits]
  rfl

section

variable {buf pkt out addr : List Byte} {locTuple : ListT Locator} {pfx : Prefix}
  {nonce : Bytes 8} {len : Nat}

/-- The lengths are between the inner header's first bytes and the Map-Request. -/
theorem setLengths_between {pktlen i : Nat} (h : setLengths buf pktlen pfx = .ok out)
    (outside : i < sizeofLispControl + 2
      ∨ sizeofLispControl + sizeofInner pfx.family + sizeofUdphdr ≤ i)
    : out[i]? = buf[i]? := by
  unfold setLengths at h
  unfold sizeofInner at outside
  simp only [sizeofLispControl, sizeofIp, sizeofIp6Hdr, sizeofUdphdr] at h outside
  split at h
  · next inet =>
      rw [if_pos inet] at outside
      obtain ⟨buf₁, ipLen, h⟩ := bind_eq_ok.mp h
      obtain ⟨buf₂, uLen, h⟩ := bind_eq_ok.mp h
      obtain ⟨ip, _, h⟩ := bind_eq_ok.mp h
      rw [wr_frame h (by simp; omega), wr_frame uLen (by simp; omega),
        wr_frame ipLen (by simp; omega)]
  · next inet6 =>
      rw [if_neg inet6] at outside
      obtain ⟨buf₁, ipLen, h⟩ := bind_eq_ok.mp h
      rw [wr_frame h (by simp; omega), wr_frame ipLen (by simp; omega)]

/-- What is in front of the ITR-RLOCs of a Map-Request, but for the lengths. -/
theorem setLispMapRequest_start
    (done : setLispMapRequest buf locTuple pfx nonce = .ok (some (out, len)))
    : (requestFront locTuple pfx nonce).length ≤ len ∧ len ≤ out.length
      ∧ ∀ i < (requestFront locTuple pfx nonce).length, i < sizeofLispControl + 2
          ∨ sizeofLispControl + sizeofInner pfx.family + sizeofUdphdr ≤ i
        → out[i]? = (requestFront locTuple pfx nonce)[i]? := by
  have builds := @setLispMapRequest_builds buf locTuple pfx nonce
  have room : requestRoom locTuple.nodes pfx ≤ buf.length := by
    refine Nat.not_lt.mp fun past => ?_
    obtain ⟨off, overrun⟩ := builds.overruns past
    cases done.symm.trans overrun
  have complete := builds.complete_of_returned room done
  obtain ⟨_, returned, sized, _⟩ := builds.returns room complete
  obtain ⟨rfl, rfl⟩ := Prod.mk.inj (Option.some.inj (Except.ok.inj (returned.symm.trans done)))
  obtain ⟨addr, addr_eq⟩ := Option.isSome_iff_exists.mp complete.1
  have front : (requestFront locTuple pfx nonce).length ≤ requestRoom locTuple.nodes pfx := by
    rw [requestFront_length, requestRoom, addr_eq]
    simp only [sizeofRequestFront, sizeofLispMapRequest]
    omega
  refine ⟨front, sized ▸ room, fun i inside outside => ?_⟩
  rw [setLispMapRequest_front addr_eq (Nat.le_trans front room)] at done
  obtain ⟨located, rlocs, done⟩ := bind_eq_ok.mp done
  cases located with
  | none => cases done
  | some located =>
      obtain ⟨⟨buf₁, pktlen⟩, record, done⟩ := bind_eq_ok.mp done
      obtain ⟨buf₂, lengths, done⟩ := bind_eq_ok.mp done
      obtain ⟨rfl, _⟩ := Prod.mk.inj (Option.some.inj (pure_eq_ok.mp done))
      obtain ⟨kept, behind⟩ := setItrRlocs_frame rlocs (.inl inside) (by omega)
      rw [setLengths_between lengths outside, setRequestRecord_frame record (by omega), kept,
        overlay_getElem?, List.getElem?_eq_getElem inside, Option.some_or]

/-- The byte that is read where one lies. -/
theorem rd_of_liesAt {m : List Byte} {b : Byte} {i : Nat} (lies : LiesAt pkt 0 m)
    (there : m[i]? = some b)
    : rd pkt i = .ok b := by
  obtain ⟨lt, _⟩ := List.getElem?_eq_some_iff.mp there
  have same := lies.getElem? lt
  rw [Nat.zero_add, there] at same
  rw [rd, same]

/-- A Map-Reply is taken for one. -/
theorem dispatch_mapReplyMessage (lies : LiesAt pkt 0 (mapReplyMessage locTuple pfx nonce))
    : dispatch pkt = .ok .mapReply := by
  have first : rd pkt 0 = .ok 0x28 := rd_of_liesAt lies rfl
  exact dispatch_bare first (by decide)

/-- A Map-Register is dropped. -/
theorem dispatch_mapRegisterMessage {auth : Bytes shaDigestLength}
    (lies : LiesAt pkt 0 (mapRegisterMessage locTuple pfx nonce auth))
    : dispatch pkt = .ok .dropped := by
  have first : rd pkt 0 = .ok 0x38 := rd_of_liesAt lies rfl
  exact dispatch_bare first (by decide)

/-- A Map-Request is taken for one, but its first header has no probe flag. -/
theorem dispatch_mapRequestMessage
    (done : setLispMapRequest buf locTuple pfx nonce = .ok (some (out, len)))
    (lies : LiesAt pkt 0 (out.take len))
    : dispatch pkt = .ok .mapRequest ∧ processLispMapRequest pkt = .ok none := by
  obtain ⟨front, _, kept⟩ := setLispMapRequest_start done
  have read {i : Nat} {b : Byte} (there : (requestFront locTuple pfx nonce)[i]? = some b)
      (outside : i < sizeofLispControl + 2
        ∨ sizeofLispControl + sizeofInner pfx.family + sizeofUdphdr ≤ i)
      : rd pkt i = .ok b := by
    obtain ⟨inside, _⟩ := List.getElem?_eq_some_iff.mp there
    refine rd_of_liesAt lies ?_
    rw [List.getElem?_take_of_lt (by omega), kept i inside outside, there]
  have flags : rd pkt 0 = .ok 0x80 := read rfl (.inl (by decide))
  have type : rd pkt (sizeofLispControl + sizeofInner pfx.family + sizeofUdphdr) = .ok 0x10 := by
    refine read ?_ (.inr (Nat.le_refl _))
    rw [requestFront, List.getElem?_append_right (by rw [requestHeaders_length rfl]),
      requestHeaders_length rfl, Nat.sub_self]
    rfl
  constructor
  · refine bind_eq_ok.mpr ⟨_, flags, ?_⟩
    rw [if_pos (by decide)]
    by_cases inet : pfx.family = afInet
    · have version : rd pkt sizeofLispControl = .ok 0x45 := by
        refine read ?_ (.inl (by decide))
        simp [requestFront, requestHeaders, innerHeader, inet, lispControl, sizeofLispControl]
      rw [sizeofInner, if_pos inet] at type
      refine bind_eq_ok.mpr ⟨_, version, ?_⟩
      exact bind_eq_ok.mpr ⟨some _, rfl, bind_eq_ok.mpr ⟨_, type, rfl⟩⟩
    · have version : rd pkt sizeofLispControl = .ok 0x6e := by
        refine read ?_ (.inl (by decide))
        simp [requestFront, requestHeaders, innerHeader, inet, lispControl, sizeofLispControl]
      rw [sizeofInner, if_neg inet] at type
      refine bind_eq_ok.mpr ⟨_, version, ?_⟩
      exact bind_eq_ok.mpr ⟨some _, rfl, bind_eq_ok.mpr ⟨_, type, rfl⟩⟩
  · refine bind_eq_ok.mpr ⟨_, flags, ?_⟩
    rfl

end

-----------------------------------------------------------------------------------------
-- Who asks for Map-Replies
-----------------------------------------------------------------------------------------

section

variable {lisp lisp' : Lisp}

/-- A visit of the TTL thread asks for no Map-Reply. -/
theorem sweepNode_mapReplies {z : Loc Mapnode} {broke : Bool}
    (done : sweepNode lisp z = .ok (lisp', broke))
    : lisp'.mapReplies = lisp.mapReplies := by
  unfold sweepNode at done
  split at done
  · split at done
    · obtain ⟨rfl, _⟩ := Prod.mk.inj (Except.ok.inj done)
      rfl
    · dsimp only at done
      split at done
      · obtain ⟨⟨rib, _⟩, _, done⟩ := bind_eq_ok.mp done
        obtain ⟨rfl, _⟩ := Prod.mk.inj (pure_eq_ok.mp done)
        split <;> rfl
      · split at done
        all_goals
          obtain ⟨rfl, _⟩ := Prod.mk.inj (pure_eq_ok.mp done)
          rfl
  · cases done

/-- Only a Map-Request asks for a Map-Reply, and only with the probe flag. -/
theorem step_mapReplies {ev : Event} (done : step lisp ev = .ok lisp')
    : lisp'.mapReplies = lisp.mapReplies
      ∨ ∃ len buf call, ev = .message len buf ∧ dispatch buf = .ok .mapRequest
          ∧ processLispMapRequest buf = .ok (some call)
          ∧ lisp'.mapReplies = call :: lisp.mapReplies := by
  cases ev with
  | message len buf =>
      simp only [step, lispMapMessageThread] at done
      split at done
      · obtain rfl := Except.ok.inj done
        exact .inl rfl
      · obtain ⟨kind, dispatched, done⟩ := bind_eq_ok.mp done
        cases kind with
        | mapReply =>
            obtain ⟨⟨after, next⟩, reply, done⟩ := bind_eq_ok.mp done
            obtain rfl := pure_eq_ok.mp done
            exact .inl (mapReplyRecords_mapReplies (processLispMapReply_records reply))
        | mapRequest =>
            obtain ⟨call, request, done⟩ := bind_eq_ok.mp done
            cases call with
            | none =>
                obtain rfl := pure_eq_ok.mp done
                exact .inl rfl
            | some call =>
                obtain rfl := pure_eq_ok.mp done
                exact .inr ⟨len, buf, call, rfl, dispatched, request, rfl⟩
        | dropped =>
            obtain rfl := pure_eq_ok.mp done
            exact .inl rfl
  | packet frame =>
      left
      simp only [step, lispRawPacketThread] at done
      split at done
      · obtain rfl := pure_eq_ok.mp done
        rfl
      · obtain ⟨found, _, done⟩ := bind_eq_ok.mp done
        split at done
        · obtain rfl := pure_eq_ok.mp done
          rfl
        · obtain ⟨rib, _, done⟩ := bind_eq_ok.mp done
          obtain rfl := pure_eq_ok.mp done
          rfl
  | installRoute dst addr =>
      left
      simp only [step, cmdInstallRoute] at done
      split at done
      · obtain rfl := Except.ok.inj done
        rfl
      · obtain ⟨⟨rib, stored⟩, _, done⟩ := bind_eq_ok.mp done
        cases stored with
        | true =>
            obtain rfl := pure_eq_ok.mp done
            unfold addRouteToTun
            split <;> rfl
        | false =>
            obtain rfl := pure_eq_ok.mp done
            rfl
  | uninstallRoute dst =>
      left
      simp only [step, cmdUninstallRoute] at done
      split at done
      · obtain rfl := Except.ok.inj done
        rfl
      · obtain ⟨⟨after, removed⟩, uninstall, done⟩ := bind_eq_ok.mp done
        obtain rfl := pure_eq_ok.mp done
        obtain ⟨found, _, uninstall⟩ := bind_eq_ok.mp uninstall
        split at uninstall
        · obtain ⟨rfl, _⟩ := Prod.mk.inj (pure_eq_ok.mp uninstall)
          rfl
        · split at uninstall
          · obtain ⟨rfl, _⟩ := Prod.mk.inj (pure_eq_ok.mp uninstall)
            rfl
          · obtain ⟨⟨rib, _⟩, _, uninstall⟩ := bind_eq_ok.mp uninstall
            obtain ⟨rfl, _⟩ := Prod.mk.inj (pure_eq_ok.mp uninstall)
            rfl
  | sweep =>
      left
      obtain ⟨w, pass, done⟩ := bind_eq_ok.mp done
      obtain rfl := pure_eq_ok.mp done
      exact @patriciaWalk_keeps _ _ _ _ (fun after => after.mapReplies = lisp.mapReplies)
        (fun _ _ _ _ kept visit => (sweepNode_mapReplies visit).trans kept) _ _ _ rfl pass

end

end Lixy
