import Lixy.Messages.RegisterLayout
import Lixy.Messages.RequestLayout

/-! How much of a buffer the encoders write. None of them asks how long the buffer is, and the
locators are counted in 8 bits, or in 5.
-/

namespace Lixy

open ByteStrings

-----------------------------------------------------------------------------------------
-- Writes
-----------------------------------------------------------------------------------------

/-- The computation writes at or behind the end of the buffer. -/
def Overruns {α : Type} (x : Except Fault α) : Prop := ∃ off, x = .error (.writePast off)

section

variable {buf out bs : List Byte} {off : Nat}

theorem not_overruns_ok {α : Type} (a : α) : ¬ Overruns (.ok a : Except Fault α) := by
  rintro ⟨_, eq⟩
  cases eq

/-- What a write that returns leaves: the bytes at their place, and the others as they were. -/
theorem wr_ok (h : wr buf off bs = .ok out)
    : off + bs.length ≤ buf.length ∧ out.length = buf.length ∧ LiesAt out off bs := by
  unfold wr at h
  split at h
  · next written =>
      obtain rfl := Except.ok.inj h
      have inside := overwrite_isSome_iff.mp (by rw [written]; rfl)
      refine ⟨inside, overwrite_length written, buf.take off, buf.drop (off + bs.length), ?_,
        List.length_take_of_le (by omega)⟩
      rw [overwrite, if_pos inside] at written
      exact (Option.some.inj written).symm
  · cases h

/-- A write that does not fit overruns. -/
theorem wr_overruns {α : Type} (past : buf.length < off + bs.length)
    (f : List Byte → Except Fault α)
    : Overruns (wr buf off bs >>= f) := by
  have none : overwrite buf off bs = none := by
    rw [overwrite, if_neg (Nat.not_le.mpr past)]
  rw [wr, none]
  exact ⟨_, rfl⟩

theorem wr_total (inside : off + bs.length ≤ buf.length) : ∃ out, wr buf off bs = .ok out := by
  obtain ⟨out, written⟩ := Option.isSome_iff_exists.mp (overwrite_isSome_iff.mpr inside)
  exact ⟨out, by rw [wr, written]⟩

end

-----------------------------------------------------------------------------------------
-- What an encoder makes of a buffer
-----------------------------------------------------------------------------------------

/-- An encoder that needs `room` in a buffer of `len` bytes: it overruns a smaller one. Else,
where the message can be completed, it returns one that takes up all the room, in a buffer of
the same length that meets `post`; and where it cannot, -1 if its error line can be printed.
-/
structure Builds (complete printed : Prop) (room len : Nat) (post : List Byte → Prop)
    (x : Except Fault Encoded) : Prop where
  overruns : len < room → Overruns x
  returns
    : room ≤ len → complete → ∃ out, x = .ok (some (out, room)) ∧ out.length = len ∧ post out
  refuses : room ≤ len → ¬ complete → printed → x = .ok none
  crashes : room ≤ len → ¬ complete → ¬ printed → x = .error .formatNonString

namespace Builds

section

variable {complete complete' printed printed' : Prop} {room room' len off : Nat}
  {post post' : List Byte → Prop} {x : Except Fault Encoded} {buf bs : List Byte}

/-- The message is complete. -/
theorem done (inside : room ≤ buf.length) (sized : buf.length = len) (met : post buf)
    (all : complete)
    : Builds complete printed room len post (.ok (some (buf, room))) where
  overruns := fun past => absurd past (Nat.not_lt.mpr (sized ▸ inside))
  returns := fun _ _ => ⟨buf, rfl, sized, met⟩
  refuses := fun _ part => absurd all part
  crashes := fun _ part => absurd all part

/-- The encoder gives up. -/
theorem stopped (inside : room ≤ len) (part : ¬ complete) (line : printed)
    : Builds complete printed room len post (.ok none) where
  overruns := fun past => absurd past (Nat.not_lt.mpr inside)
  returns := fun _ all => absurd all part
  refuses := fun _ _ _ => rfl
  crashes := fun _ _ unprinted => absurd line unprinted

/-- The encoder gives up with an error line that is not its own string. -/
theorem formatted {value : Int} (inside : room ≤ len) (part : ¬ complete)
    (line : printed ↔ value = 0)
    : Builds complete printed room len post (formatString value >>= fun _ => .ok none) where
  overruns := fun past => absurd past (Nat.not_lt.mpr inside)
  returns := fun _ all => absurd all part
  refuses := fun _ _ shown => by
    rw [formatString, if_pos (line.mp shown)]
    rfl
  crashes := fun _ _ unprinted => by
    rw [formatString, if_neg (mt line.mpr unprinted)]
    rfl

theorem weaken (h : Builds complete printed room len post x) (same : complete' ↔ complete)
    (line : printed' ↔ printed) (met : ∀ out, post out → post' out)
    : Builds complete' printed' room len post' x where
  overruns := h.overruns
  returns := fun inside all =>
    let ⟨out, ok, sized, post⟩ := h.returns inside (same.mp all)
    ⟨out, ok, sized, met out post⟩
  refuses := fun inside part shown => h.refuses inside (mt same.mpr part) (line.mp shown)
  crashes := fun inside part unprinted =>
    h.crashes inside (mt same.mpr part) (mt line.mpr unprinted)

/-- What is returned is a complete message. -/
theorem complete_of_returned {result : List Byte × Nat}
    (h : Builds complete printed room len post x) (inside : room ≤ len)
    (done : x = .ok (some result))
    : complete := by
  by_contra part
  by_cases line : printed
  · cases done.symm.trans (h.refuses inside part line)
  · cases done.symm.trans (h.crashes inside part line)

/-- A write within the room comes first. -/
theorem wr {f : List Byte → Except Fault Encoded} (within : off + bs.length ≤ room)
    (next : ∀ out, Lixy.wr buf off bs = .ok out
      → Builds complete printed room buf.length post (f out))
    : Builds complete printed room buf.length post (Lixy.wr buf off bs >>= f) := by
  by_cases inside : off + bs.length ≤ buf.length
  · obtain ⟨out, written⟩ := wr_total inside
    rw [written]
    exact next out written
  · have past := Nat.not_le.mp inside
    exact {
      overruns := fun _ => wr_overruns past f
      returns := fun fits => absurd (Nat.le_trans within fits) inside
      refuses := fun fits => absurd (Nat.le_trans within fits) inside
      crashes := fun fits => absurd (Nat.le_trans within fits) inside }

/-- What follows an encoder takes up the message it returns, or gives up where it does. -/
theorem bind {g : Encoded → Except Fault Encoded} (h : Builds complete printed room len post x)
    (within : room ≤ room') (sub : complete' → complete)
    (next : complete → room ≤ len → ∀ out, out.length = len → post out
      → Builds complete' printed room' len post' (g (some (out, room))))
    (stops : ¬ complete → room' = room ∧ g none = .ok none)
    : Builds complete' printed room' len post' (x >>= g) := by
  by_cases inside : room ≤ len
  · by_cases all : complete
    · obtain ⟨out, rfl, sized, met⟩ := h.returns inside all
      exact next all inside out sized met
    · obtain ⟨rfl, refused⟩ := stops all
      by_cases line : printed
      · rw [h.refuses inside all line]
        change Builds complete' printed room' len post' (g none)
        rw [refused]
        exact stopped inside (mt sub all) line
      · rw [h.crashes inside all line]
        exact {
          overruns := fun past => absurd past (Nat.not_lt.mpr inside)
          returns := fun _ whole => absurd (sub whole) all
          refuses := fun _ _ shown => absurd shown line
          crashes := fun _ _ _ => rfl }
  · obtain ⟨off, past⟩ := h.overruns (Nat.not_le.mp inside)
    rw [past]
    exact {
      overruns := fun _ => ⟨off, rfl⟩
      returns := fun fits => absurd (Nat.le_trans within fits) inside
      refuses := fun fits => absurd (Nat.le_trans within fits) inside
      crashes := fun fits => absurd (Nat.le_trans within fits) inside }

end

end Builds

-----------------------------------------------------------------------------------------
-- Loops over the locators
-----------------------------------------------------------------------------------------

/-- The room that the locators of a record take: a locator of an unknown family ends the loop
behind its fixed part.
-/
def locatorsRoom : List Locator → Nat
  | [] => 0
  | tmploc :: rest =>
      sizeofLispLocator
        + match tmploc.locAddr.addr with
          | some addr => addr.length + locatorsRoom rest
          | none => 0

/-- The room that the ITR-RLOCs take: one of an unknown family ends the loop. -/
def itrRlocsRoom : List Locator → Nat
  | [] => 0
  | loc :: rest =>
      match loc.locAddr.addr with
      | some addr => 2 + addr.length + itrRlocsRoom rest
      | none => 0

/-- The first locator of an unknown family, if there is one, has family 0, which its error line
prints.
-/
def UnknownPrinted (locs : List Locator) : Prop :=
  ∀ loc ∈ locs.find? (fun loc => ¬ loc.Known), loc.locAddr.family = 0

instance (locs : List Locator) : Decidable (UnknownPrinted locs) :=
  inferInstanceAs (Decidable (∀ loc ∈ locs.find? _, loc.locAddr.family = 0))

section

variable {buf : List Byte} {locs : List Locator} {loc : Locator} {pktlen ptr i : Nat}

theorem unknownPrinted_of_known (known : ∀ loc ∈ locs, loc.Known) : UnknownPrinted locs := by
  have none : locs.find? (fun loc => ¬ loc.Known) = none := by
    rw [List.find?_eq_none]
    intro loc mem
    simpa using known loc mem
  rw [UnknownPrinted, none]
  exact fun _ mem => absurd mem (Option.not_mem_none _)

/-- Where all families are known, no error line is printed. -/
theorem unknownPrinted_iff
    : (¬ (∀ loc ∈ locs, loc.Known) → UnknownPrinted locs) ↔ UnknownPrinted locs :=
  ⟨fun h => (Classical.em (∀ loc ∈ locs, loc.Known)).elim unknownPrinted_of_known h, fun h _ => h⟩

theorem unknownPrinted_cons (known : loc.Known)
    : UnknownPrinted (loc :: locs) ↔ UnknownPrinted locs := by
  rw [UnknownPrinted, UnknownPrinted, List.find?_cons_of_neg (by simpa using known)]

theorem unknownPrinted_first (unknown : ¬ loc.Known)
    : UnknownPrinted (loc :: locs) ↔ (loc.locAddr.family : Int) = 0 := by
  rw [UnknownPrinted, List.find?_cons_of_pos (by simpa using unknown)]
  simp

theorem forall_known_cons (known : loc.Known)
    : (∀ other ∈ loc :: locs, other.Known) ↔ ∀ other ∈ locs, other.Known := by
  rw [List.forall_mem_cons, and_iff_right known]

theorem not_forall_known (unknown : loc.locAddr.addr = none)
    : ¬ ∀ other ∈ loc :: locs, other.Known := by
  intro known
  have here := known loc List.mem_cons_self
  rw [Locator.Known, unknown] at here
  cases here

/-- The loop over a record's locators keeps what is in front of them; by induction on them. -/
theorem setLocators_builds (inside : pktlen ≤ buf.length) (before : i < pktlen)
    : Builds (∀ loc ∈ locs, loc.Known) (UnknownPrinted locs) (pktlen + locatorsRoom locs)
        buf.length (fun out => out[i]? = buf[i]?) (setLocators buf pktlen locs) := by
  induction locs generalizing buf pktlen with
  | nil => exact .done inside rfl rfl (by simp)
  | cons loc rest ih =>
      rw [setLocators, locatorsRoom]
      refine .wr (by rw [lispLocator_length]; omega) fun out written => ?_
      obtain ⟨fits, sized, _⟩ := wr_ok written
      rw [lispLocator_length] at fits
      cases known : loc.locAddr.addr with
      | none =>
          refine .formatted fits (not_forall_known known) (unknownPrinted_first ?_)
          rw [Locator.Known, known]
          decide
      | some addr =>
          have frame := wr_frame written (i := i) (.inl before)
          rw [← sized] at fits ⊢
          dsimp only
          refine .wr (by omega) fun out' written' => ?_
          obtain ⟨fits', sized', _⟩ := wr_ok written'
          have frame' := wr_frame written' (i := i) (.inl (by omega))
          have here : loc.Known := by rw [Locator.Known, known]; rfl
          rw [← sized'] at fits' ⊢
          have rest_builds := @ih out' (pktlen + sizeofLispLocator + addr.length) fits' (by omega)
          rw [show pktlen + (sizeofLispLocator + (addr.length + locatorsRoom rest))
            = pktlen + sizeofLispLocator + addr.length + locatorsRoom rest by omega]
          refine rest_builds.weaken (forall_known_cons here) (unknownPrinted_cons here)
            fun out'' same => ?_
          rw [same, frame', frame]

/-- The loop over the ITR-RLOCs keeps what is in front of them; by induction on them. -/
theorem setItrRlocs_builds (inside : pktlen ≤ buf.length) (behind : ptr ≤ pktlen) (before : i < ptr)
    : Builds (∀ loc ∈ locs, loc.Known) True (pktlen + itrRlocsRoom locs) buf.length
        (fun out => out[i]? = buf[i]?) (setItrRlocs buf ptr pktlen locs) := by
  induction locs generalizing buf pktlen with
  | nil => exact .done inside rfl rfl (by simp)
  | cons loc rest ih =>
      rw [setItrRlocs, itrRlocsRoom]
      cases known : loc.locAddr.addr with
      | none => exact .stopped inside (not_forall_known known) trivial
      | some addr =>
          dsimp only
          refine .wr (by rw [put16_length]; omega) fun out written => ?_
          obtain ⟨_, sized, _⟩ := wr_ok written
          have frame := wr_frame written (i := i) (.inl before)
          rw [← sized]
          refine .wr (by omega) fun out' written' => ?_
          obtain ⟨fits', sized', _⟩ := wr_ok written'
          have frame' := wr_frame written' (i := i) (.inl (by omega))
          have here : loc.Known := by rw [Locator.Known, known]; rfl
          rw [← sized'] at fits' ⊢
          have rest_builds := @ih out' (pktlen + 2 + addr.length) fits' (by omega)
          rw [show pktlen + (2 + addr.length + itrRlocsRoom rest)
            = pktlen + 2 + addr.length + itrRlocsRoom rest by omega]
          refine rest_builds.weaken (forall_known_cons here) .rfl fun out'' same => ?_
          rw [same, frame', frame]

end

-----------------------------------------------------------------------------------------
-- The encoders
-----------------------------------------------------------------------------------------

/-- The room of a record with its locators. -/
def recordRoom (locs : List Locator) (pfx : Prefix) : Nat :=
  sizeofLispRecord + (pfx.addr.getD []).length + locatorsRoom locs

/-- The room of a Map-Reply. -/
def replyRoom (locs : List Locator) (pfx : Prefix) : Nat :=
  sizeofLispMapReply + recordRoom locs pfx

/-- The room of a Map-Register. -/
def registerRoom (locs : List Locator) (pfx : Prefix) : Nat :=
  sizeofLispMapRegister + recordRoom locs pfx

/-- The room in front of a Map-Request's ITR-RLOCs. -/
def sizeofRequestFront (pfx : Prefix) : Nat :=
  sizeofLispControl + sizeofInner pfx.family + sizeofUdphdr + sizeofLispMapRequest + 2

/-- The room of a Map-Request: a prefix of an unknown family ends it behind the first header, a
locator of one in front of the record.
-/
def requestRoom (locs : List Locator) (pfx : Prefix) : Nat :=
  match pfx.addr with
  | none => sizeofLispControl
  | some addr =>
      sizeofRequestFront pfx + itrRlocsRoom locs
        + if ∀ loc ∈ locs, loc.Known then sizeofLispMapRequestRecord + addr.length else 0

section

variable {buf : List Byte} {locTuple : ListT Locator} {locs : List Locator} {pfx : Prefix}
  {nonce : Bytes 8} {pktlen room : Nat} {complete printed : Prop} {post : List Byte → Prop}

/-- A record comes first: its locator count is the list's, in 8 bits. -/
theorem Builds.setRecord {f : List Byte × Nat → Except Fault Encoded}
    (within : pktlen + (sizeofLispRecord + (pfx.addr.getD []).length) ≤ room)
    (next : ∀ out, out.length = buf.length
      → pktlen + sizeofLispRecord + (pfx.addr.getD []).length ≤ buf.length
      → out[pktlen + 4]? = some (BitVec.ofNat 8 locTuple.count.toNat)
      → Builds complete printed room buf.length post
          (f (out, pktlen + sizeofLispRecord + (pfx.addr.getD []).length)))
    : Builds complete printed room buf.length post
        (Lixy.setRecord buf pktlen locTuple pfx >>= f) := by
  rw [Lixy.setRecord, bind_assoc]
  refine .wr (by rw [lispRecord_length]; omega) fun out written => ?_
  obtain ⟨fits, sized, lies⟩ := wr_ok written
  rw [lispRecord_length] at fits
  have counted : out[pktlen + 4]? = some (BitVec.ofNat 8 locTuple.count.toNat) :=
    lies.getElem? (i := 4) (by rw [lispRecord_length]; decide)
  cases known : pfx.addr with
  | none =>
      rw [known] at next
      exact next out sized fits counted
  | some addr =>
      rw [known] at next within
      dsimp only [Option.getD_some] at next within ⊢
      rw [bind_assoc]
      have start : out.length = buf.length := sized
      rw [← start] at next ⊢
      refine .wr (by omega) fun out' written' => ?_
      obtain ⟨fits', sized', _⟩ := wr_ok written'
      have before : pktlen + 4 < pktlen + sizeofLispRecord := Nat.add_lt_add_left (by decide) _
      exact next out' sized' fits' (by rw [wr_frame written' (.inl before), counted])

/-- `set_lisp_map_reply` needs the whole message's room. -/
theorem setLispMapReply_builds
    : Builds (∀ loc ∈ locTuple.nodes, loc.Known) (UnknownPrinted locTuple.nodes)
        (replyRoom locTuple.nodes pfx) buf.length
        (fun out => out[16]? = some (BitVec.ofNat 8 locTuple.count.toNat))
        (setLispMapReply buf locTuple pfx nonce) := by
  rw [setLispMapReply]
  have header : ([BitVec.ofNat 8 (lispMapRply * 16 + 8), 0, 0, 1] ++ nonce.toList).length
      = sizeofLispMapReply := by simp
  refine .wr (by rw [header, replyRoom]; omega) fun out written => ?_
  obtain ⟨_, sized, _⟩ := wr_ok written
  rw [← sized]
  refine .setRecord (by rw [replyRoom, recordRoom]; omega) fun out' sized' fits' counted => ?_
  rw [← sized'] at fits' ⊢
  have locators := @setLocators_builds out' locTuple.nodes _ 16 fits'
    (by simp only [sizeofLispMapReply, sizeofLispRecord]; omega)
  rw [replyRoom, recordRoom, ← Nat.add_assoc, ← Nat.add_assoc]
  exact locators.weaken .rfl .rfl fun out'' same => same.trans counted

/-- `set_lisp_map_register` needs the whole message's room. -/
theorem setLispMapRegister_builds {key : List Byte}
    (hmacSha1 : List Byte → List Byte → Bytes shaDigestLength) (ends : 0 ∈ key)
    : Builds (∀ loc ∈ locTuple.nodes, loc.Known) (UnknownPrinted locTuple.nodes)
        (registerRoom locTuple.nodes pfx) buf.length
        (fun out => out[40]? = some (BitVec.ofNat 8 locTuple.count.toNat))
        (setLispMapRegister hmacSha1 buf locTuple pfx key nonce) := by
  rw [setLispMapRegister]
  have header : ([BitVec.ofNat 8 (lispMapRgst * 16 + 8), 0, 0, 1] ++ List.replicate 8 0 ++ put16 1
      ++ put16 shaDigestLength ++ List.replicate shaDigestLength (0 : Byte)).length
      = sizeofLispMapRegister := rfl
  refine .wr (by rw [header, registerRoom]; omega) fun out written => ?_
  obtain ⟨_, sized, _⟩ := wr_ok written
  rw [← sized]
  refine .setRecord (by rw [registerRoom, recordRoom]; omega) fun out₁ sized₁ fits₁ counted => ?_
  rw [← sized₁] at fits₁ ⊢
  have drawn : 4 + nonce.toList.length ≤ registerRoom locTuple.nodes pfx := by
    rw [List.Vector.toList_length, registerRoom, recordRoom]
    simp only [sizeofLispMapRegister]
    omega
  refine .wr drawn fun out₂ written₂ => ?_
  obtain ⟨_, sized₂, _⟩ := wr_ok written₂
  have counted₂ : out₂[40]? = some (BitVec.ofNat 8 locTuple.count.toNat) := by
    rw [wr_frame written₂ (.inr (by simp)), ← counted]
  rw [← sized₂] at fits₁ ⊢
  have locators := @setLocators_builds out₂ locTuple.nodes _ 40 fits₁
    (by simp only [sizeofLispMapRegister, sizeofLispRecord]; omega)
  have total : registerRoom locTuple.nodes pfx
      = sizeofLispMapRegister + sizeofLispRecord + (pfx.addr.getD []).length
        + locatorsRoom locTuple.nodes := by
    rw [registerRoom, recordRoom, ← Nat.add_assoc, ← Nat.add_assoc]
  rw [total]
  refine locators.bind (Nat.le_refl _) id (fun all inside out₃ sized₃ same => ?_)
    (fun _ => ⟨rfl, rfl⟩)
  have string : rdString key 0 = .ok (key.takeWhile (· ≠ 0)) := by
    rw [rdString, List.drop_zero, if_pos ends]
  dsimp only
  rw [string, ← sized₃]
  refine .wr ?_ fun out₄ written₄ => ?_
  · rw [List.Vector.toList_length]
    simp only [sizeofLispMapRegister, shaDigestLength]
    omega
  obtain ⟨_, sized₄, _⟩ := wr_ok written₄
  refine .done (by rw [sized₄, sized₃]; exact inside) sized₄ ?_ all
  rw [wr_frame written₄ (.inr (by rw [List.Vector.toList_length]; decide)), same, counted₂]

/-- A request record and what follows it. -/
theorem Builds.setRequestRecord {addr : List Byte} {f : List Byte × Nat → Except Fault Encoded}
    (within : pktlen + sizeofLispMapRequestRecord + addr.length ≤ room)
    (next : ∀ out, out.length = buf.length
      → pktlen + sizeofLispMapRequestRecord + addr.length ≤ buf.length
      → (∀ i < pktlen, out[i]? = buf[i]?)
      → Builds complete printed room buf.length post
          (f (out, pktlen + sizeofLispMapRequestRecord + addr.length)))
    : Builds complete printed room buf.length post
        (Lixy.setRequestRecord buf pktlen pfx addr >>= f) := by
  rw [Lixy.setRequestRecord, bind_assoc]
  refine .wr ?_ fun out written => ?_
  · exact Nat.le_trans (Nat.le_add_right _ addr.length) within
  · obtain ⟨_, sized, _⟩ := wr_ok written
    rw [bind_assoc]
    rw [← sized] at next ⊢
    refine .wr within fun out' written' => ?_
    obtain ⟨fits', sized', _⟩ := wr_ok written'
    refine next out' sized' fits' fun i before => ?_
    have before' : i < pktlen + sizeofLispMapRequestRecord := Nat.lt_add_right _ before
    rw [wr_frame written' (.inl before'), wr_frame written (.inl before)]

/-- The lengths are set within the headers. -/
theorem setLengths_total
    (inside : sizeofLispControl + sizeofInner pfx.family + sizeofUdphdr ≤ buf.length)
    : ∃ out, setLengths buf pktlen pfx = .ok out ∧ out.length = buf.length
        ∧ ∀ i, sizeofLispControl + sizeofInner pfx.family + sizeofUdphdr ≤ i
          → out[i]? = buf[i]? := by
  by_cases ipv4 : pfx.family = afInet
  · rw [sizeofInner, if_pos ipv4] at inside ⊢
    simp only [sizeofLispControl, sizeofIp, sizeofUdphdr] at inside
    obtain ⟨buf₁, written₁⟩ := @wr_total buf (put16 (pktlen - sizeofLispControl)) 6
      (by rw [put16_length]; omega)
    obtain ⟨_, sized₁, _⟩ := wr_ok written₁
    obtain ⟨buf₂, written₂⟩ := @wr_total buf₁ (put16 (pktlen - sizeofLispControl - sizeofIp)) 28
      (by rw [put16_length]; omega)
    obtain ⟨_, sized₂, _⟩ := wr_ok written₂
    obtain ⟨ip, read⟩ := @rdBytes_total buf₂ 4 20 (by omega)
    obtain ⟨buf₃, written₃⟩ := @wr_total buf₂ (put16 (chksum ip.toList)).reverse 14
      (by rw [List.length_reverse, put16_length]; omega)
    obtain ⟨_, sized₃, _⟩ := wr_ok written₃
    refine ⟨buf₃, ?_, by rw [sized₃, sized₂, sized₁], fun i behind => ?_⟩
    · rw [setLengths, if_pos ipv4]
      simp only [sizeofLispControl, sizeofIp, bind, Except.bind, Nat.reduceAdd] at *
      rw [written₁]
      dsimp only
      rw [written₂]
      dsimp only
      rw [read]
      exact written₃
    · simp only [sizeofLispControl, sizeofIp, sizeofUdphdr] at behind
      rw [wr_frame written₃ (.inr (by rw [List.length_reverse, put16_length]; omega)),
        wr_frame written₂ (.inr (by rw [put16_length]; omega)),
        wr_frame written₁ (.inr (by rw [put16_length]; omega))]
  · rw [sizeofInner, if_neg ipv4] at inside ⊢
    simp only [sizeofLispControl, sizeofIp6Hdr, sizeofUdphdr] at inside
    obtain ⟨buf₁, written₁⟩ := @wr_total buf
      (put16 (pktlen - sizeofLispControl - sizeofIp6Hdr)) 8 (by rw [put16_length]; omega)
    obtain ⟨_, sized₁, _⟩ := wr_ok written₁
    obtain ⟨buf₂, written₂⟩ := @wr_total buf₁
      (put16 (pktlen - sizeofLispControl - sizeofIp6Hdr)) 48 (by rw [put16_length]; omega)
    obtain ⟨_, sized₂, _⟩ := wr_ok written₂
    refine ⟨buf₂, ?_, by rw [sized₂, sized₁], fun i behind => ?_⟩
    · rw [setLengths, if_neg ipv4]
      simp only [sizeofLispControl, sizeofIp6Hdr, bind, Except.bind, Nat.reduceAdd] at *
      rw [written₁]
      exact written₂
    · simp only [sizeofLispControl, sizeofIp6Hdr, sizeofUdphdr] at behind
      rw [wr_frame written₂ (.inr (by rw [put16_length]; omega)),
        wr_frame written₁ (.inr (by rw [put16_length]; omega))]

/-- The place of a Map-Request's IRC. -/
def requestIrcOffset (pfx : Prefix) : Nat :=
  sizeofLispControl + sizeofInner pfx.family + sizeofUdphdr + 2

/-- `set_lisp_map_request` needs the room up to where it ends. -/
theorem setLispMapRequest_builds
    : Builds (pfx.addr.isSome ∧ ∀ loc ∈ locTuple.nodes, loc.Known) True
        (requestRoom locTuple.nodes pfx) buf.length
        (fun out => out[requestIrcOffset pfx]? = some (requestIrcOf locTuple))
        (setLispMapRequest buf locTuple pfx nonce) := by
  have control : (lispControl lispEcapCtl).length = sizeofLispControl := rfl
  have udp : (setUdpHdr 0 lispControlPort lispControlPort).length = sizeofUdphdr := by
    simp [setUdpHdr]
  have header : ([BitVec.ofNat 8 (lispMapRqst * 16), 0, requestIrcOf locTuple, 1]
      ++ nonce.toList).length = sizeofLispMapRequest := by simp
  cases known : pfx.addr with
  | none =>
      rw [setLispMapRequest, requestRoom, known]
      refine .wr (Nat.le_of_eq (Nat.zero_add _)) fun out written =>
        .stopped ?_ (by simp) trivial
      have fits := (wr_ok written).1
      rwa [control, Nat.zero_add] at fits
  | some addr =>
      have room_eq : requestRoom locTuple.nodes pfx
          = sizeofRequestFront pfx + itrRlocsRoom locTuple.nodes
            + if ∀ loc ∈ locTuple.nodes, loc.Known then sizeofLispMapRequestRecord + addr.length
              else 0 := by
        rw [requestRoom, known]
      have within : sizeofRequestFront pfx ≤ requestRoom locTuple.nodes pfx := by
        rw [room_eq, Nat.add_assoc]
        exact Nat.le_add_right _ _
      rw [sizeofRequestFront] at within
      rw [setLispMapRequest_writes known]
      refine .wr (by rw [control]; omega) fun out₁ written₁ => ?_
      rw [← (wr_ok written₁).2.1]
      refine .wr (by rw [innerHeader_length rfl]; omega) fun out₂ written₂ => ?_
      rw [← (wr_ok written₂).2.1]
      refine .wr (by rw [udp]; omega) fun out₃ written₃ => ?_
      rw [← (wr_ok written₃).2.1]
      refine .wr (by rw [header]; omega) fun out₄ written₄ => ?_
      obtain ⟨_, sized₄, lies⟩ := wr_ok written₄
      have irc : out₄[requestIrcOffset pfx]? = some (requestIrcOf locTuple) :=
        lies.getElem? (i := 2) (by rw [header]; decide)
      rw [← sized₄]
      refine .wr (by rw [put16_length]; omega) fun out₅ written₅ => ?_
      obtain ⟨fits₅, sized₅, _⟩ := wr_ok written₅
      have irc₅ : out₅[requestIrcOffset pfx]? = some (requestIrcOf locTuple) := by
        rw [wr_frame written₅ (.inl ?_), irc]
        rw [requestIrcOffset]
        exact Nat.add_lt_add_left (by decide) _
      rw [put16_length, ← sized₅] at fits₅
      rw [← sized₅]
      have rlocs := @setItrRlocs_builds out₅ locTuple.nodes _ _ (requestIrcOffset pfx) fits₅
        (Nat.le_refl _) (by rw [requestIrcOffset]; simp only [sizeofLispMapRequest]; omega)
      refine rlocs.bind ?_ And.right (fun all inside out₆ sized₆ same => ?_) fun part => ?_
      · rw [room_eq]
        exact Nat.le_add_right _ _
      · have total : requestRoom locTuple.nodes pfx
            = sizeofLispControl + sizeofInner pfx.family + sizeofUdphdr + sizeofLispMapRequest + 2
              + itrRlocsRoom locTuple.nodes + sizeofLispMapRequestRecord + addr.length := by
          rw [room_eq, if_pos all, sizeofRequestFront, ← Nat.add_assoc _ sizeofLispMapRequestRecord]
        rw [← sized₆]
        refine .setRequestRecord (Nat.le_of_eq total.symm) fun out₇ sized₇ fits₇ frame₇ => ?_
        obtain ⟨out₈, set, sized₈, frame₈⟩ := @setLengths_total out₇ pfx
          (requestRoom locTuple.nodes pfx) (by omega)
        dsimp only
        rw [← total] at fits₇ ⊢
        rw [set]
        refine .done ?_ (sized₈.trans sized₇) ?_ ⟨rfl, all⟩
        · rwa [sized₈, sized₇]
        · rw [frame₈ _ (by rw [requestIrcOffset]; omega),
            frame₇ _ (by rw [requestIrcOffset]; simp only [sizeofLispMapRequest]; omega), same,
            irc₅]
      · rw [room_eq, if_neg part]
        exact ⟨rfl, rfl⟩

end

-----------------------------------------------------------------------------------------
-- Respecting the buffer
-----------------------------------------------------------------------------------------

/-- In a buffer of `len` bytes, the encoder returns with nothing written behind the end, and a
message that it returns is no longer and announces as many locators as there are in it.
-/
def Respects (encode : List Byte → Except Fault Encoded) (announced : List Byte → Nat)
    (locs : List Locator) (len : Nat) : Prop :=
  ∀ buf : List Byte, buf.length = len
    → ∃ encoded, encode buf = .ok encoded
        ∧ ∀ out pktlen, encoded = some (out, pktlen)
          → pktlen ≤ len ∧ announced out = locs.length

/-- The locator count of a Map-Reply's record. -/
def replyAnnounced (out : List Byte) : Nat := (byteAt out 16).toNat

/-- The locator count of a Map-Register's record. -/
def registerAnnounced (out : List Byte) : Nat := (byteAt out 40).toNat

/-- The IRC of a Map-Request, where 0 stands for one ITR-RLOC. -/
def requestAnnounced (pfx : Prefix) (out : List Byte) : Nat :=
  (byteAt out (requestIrcOffset pfx)).toNat % 32 + 1

/-- The locators can be counted in 8 bits. -/
def CountedInByte (locs : List Locator) : Prop := (∀ loc ∈ locs, loc.Known) → locs.length ≤ 255

/-- The ITR-RLOCs can be counted in 5 bits, less one. -/
def CountedInIrc (locs : List Locator) (pfx : Prefix) : Prop :=
  pfx.addr.isSome → (∀ loc ∈ locs, loc.Known) → 1 ≤ locs.length ∧ locs.length ≤ 32

section

variable {locs : List Locator} {len : Nat}

/-- An encoder respects the buffers that have its room, if what it announces is right, or its
error line can be printed.
-/
theorem respects_iff {encode : List Byte → Except Fault Encoded} {announced : List Byte → Nat}
    {complete printed : Prop} {room count : Nat} {post : List Byte → Prop}
    (builds : ∀ buf : List Byte, Builds complete printed room buf.length post (encode buf))
    (counts : ∀ out, post out → announced out = count)
    : Respects encode announced locs len
      ↔ room ≤ len ∧ (complete → count = locs.length) ∧ (¬ complete → printed) := by
  constructor
  · intro respects
    have sized : (List.replicate len (0 : Byte)).length = len := List.length_replicate
    obtain ⟨encoded, returned, announces⟩ := respects _ sized
    have built := builds (List.replicate len 0)
    rw [sized, returned] at built
    have fits : room ≤ len := Nat.not_lt.mp fun past => not_overruns_ok _ (built.overruns past)
    refine ⟨fits, fun all => ?_, fun part => ?_⟩
    · obtain ⟨out, message, _, met⟩ := built.returns fits all
      rw [← counts out met, (announces out room (Except.ok.inj message)).2]
    · by_contra unprinted
      cases built.crashes fits part unprinted
  · rintro ⟨fits, count_eq, line⟩ buf sized
    have built := builds buf
    rw [sized] at built
    by_cases all : complete
    · obtain ⟨out, returned, _, met⟩ := built.returns fits all
      refine ⟨_, returned, fun out' pktlen same => ?_⟩
      obtain ⟨rfl, rfl⟩ := Prod.mk.inj (Option.some.inj same)
      exact ⟨fits, (counts out met).trans (count_eq all)⟩
    · refine ⟨none, built.refuses fits all (line all), fun out' pktlen same => ?_⟩
      cases same

theorem byteAt_of_getElem? {out : List Byte} {i : Nat} {b : Byte} (there : out[i]? = some b)
    : byteAt out i = b := by
  rw [byteAt, List.getD, there, Option.getD_some]

/-- Cut to 8 bits, the count is right up to 255. -/
theorem count_eq_length_iff
    : (BitVec.ofNat 8 (listOf locs).count.toNat).toNat = locs.length ↔ locs.length ≤ 255 := by
  rw [listOf_count, BitVec.toNat_ofNat, BitVec.toNat_ofNat]
  omega

/-- Cut to 5 bits, the count less one is right from 1 to 32. -/
theorem irc_eq_length_iff
    : (requestIrcOf (listOf locs)).toNat % 32 + 1 = locs.length
      ↔ 1 ≤ locs.length ∧ locs.length ≤ 32 := by
  rw [requestIrcOf, listOf_count, BitVec.toNat_ofNat, BitVec.toNat_sub, BitVec.toNat_ofNat]
  change (2 ^ 32 - 1 + locs.length % 2 ^ 32) % 2 ^ 32 % 32 % 2 ^ 8 % 32 + 1 = locs.length ↔ _
  omega

end

/-- The encoders respect just the buffers that have the room up to where they end, with no more
locators than they can count; and those of a record, with none of an unknown family other than 0
in front of all other unknown ones.
-/
theorem encoders_respect_iff (hmacSha1 : List Byte → List Byte → Bytes shaDigestLength)
    {key : List Byte} (ends : 0 ∈ key) (nonce : Bytes 8) (locs : List Locator) (pfx : Prefix)
    (len : Nat)
    : (Respects (fun buf => setLispMapRequest buf (listOf locs) pfx nonce) (requestAnnounced pfx)
          locs len
        ↔ requestRoom locs pfx ≤ len ∧ CountedInIrc locs pfx)
      ∧ (Respects (fun buf => setLispMapRegister hmacSha1 buf (listOf locs) pfx key nonce)
          registerAnnounced locs len
        ↔ registerRoom locs pfx ≤ len ∧ CountedInByte locs ∧ UnknownPrinted locs)
      ∧ (Respects (fun buf => setLispMapReply buf (listOf locs) pfx nonce) replyAnnounced locs len
        ↔ replyRoom locs pfx ≤ len ∧ CountedInByte locs ∧ UnknownPrinted locs) := by
  refine ⟨?_, ?_, ?_⟩
  · have iff := @respects_iff locs len _ (requestAnnounced pfx) _ _ _ _ _
      (fun buf => @setLispMapRequest_builds buf (listOf locs) pfx nonce)
      (fun out there => by rw [requestAnnounced, byteAt_of_getElem? there])
    rw [iff, listOf_nodes, irc_eq_length_iff, CountedInIrc, and_imp, imp_true_iff, and_true]
  · have iff := @respects_iff locs len _ registerAnnounced _ _ _ _ _
      (fun buf => @setLispMapRegister_builds buf (listOf locs) pfx nonce key hmacSha1 ends)
      (fun out there => by rw [registerAnnounced, byteAt_of_getElem? there])
    rw [iff, listOf_nodes, count_eq_length_iff, CountedInByte, unknownPrinted_iff]
  · have iff := @respects_iff locs len _ replyAnnounced _ _ _ _ _
      (fun buf => @setLispMapReply_builds buf (listOf locs) pfx nonce)
      (fun out there => by rw [replyAnnounced, byteAt_of_getElem? there])
    rw [iff, listOf_nodes, count_eq_length_iff, CountedInByte, unknownPrinted_iff]

/-- Witness: with two locators, a Map-Register for 10.0.0.0/8 respects a buffer of 88 bytes and no
smaller one.
-/
theorem testPrefix_respected
    : Respects (fun buf => setLispMapRegister firstBytes buf (listOf testLocators) testPrefix
        [97, 98, 0] (zeros 8)) registerAnnounced testLocators 88
      ∧ ¬ Respects (fun buf => setLispMapRegister firstBytes buf (listOf testLocators) testPrefix
        [97, 98, 0] (zeros 8)) registerAnnounced testLocators 87 := by
  have ends : (0 : Byte) ∈ [97, 98, 0] := by decide
  obtain ⟨_, fits, _⟩ := encoders_respect_iff firstBytes ends (zeros 8) testLocators testPrefix 88
  obtain ⟨_, short, _⟩ := encoders_respect_iff firstBytes ends (zeros 8) testLocators testPrefix 87
  exact ⟨fits.mpr ⟨by decide, fun _ => by decide, by decide⟩,
    fun respects => absurd (short.mp respects).1 (by decide)⟩

/-- With 84 locators, a Map-Reply does not fit in the buffer that `send_map_reply` gives it. -/
theorem manyLocators_overrun
    : ¬ ∀ (locs : List Locator) (pfx : Prefix) (nonce : Bytes 8) (len : Nat), pfx.Valid
        → (∀ loc ∈ locs, loc.Known)
        → Respects (fun buf => setLispMapReply buf (listOf locs) pfx nonce) replyAnnounced locs
            len := by
  intro respects
  have known : ∀ loc ∈ List.replicate 84 testLocator, loc.Known := by
    intro loc mem
    obtain rfl := List.eq_of_mem_replicate mem
    decide
  have sized : (List.replicate lispMsgBufLen (0 : Byte)).length = lispMsgBufLen :=
    List.length_replicate
  obtain ⟨encoded, returned, _⟩ :=
    respects _ testPrefix (zeros 8) lispMsgBufLen (by decide) known _ sized
  dsimp only at returned
  have built := @setLispMapReply_builds (List.replicate lispMsgBufLen 0)
    (listOf (List.replicate 84 testLocator)) testPrefix (zeros 8)
  rw [sized, listOf_nodes, returned] at built
  exact not_overruns_ok _ (built.overruns (by decide +kernel))

end Lixy
