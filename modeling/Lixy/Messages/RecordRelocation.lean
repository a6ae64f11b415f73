import Lixy.Messages.ReadBounds

/-! A record is parsed by its own bytes, wherever it lies: behind other bytes its offsets are
moved, and what is returned is the same.
-/

namespace Lixy

open ByteStrings

-----------------------------------------------------------------------------------------
-- The same returns
-----------------------------------------------------------------------------------------

/-- The first computation returns what the second does, moved by `f`. Where they fail is open. -/
def Moved {α β : Type} (f : β → α) (x : Except Fault α) (y : Except Fault β) : Prop :=
  ∀ a, x = .ok a ↔ ∃ b, y = .ok b ∧ a = f b

section

variable {α β γ δ : Type} {f : β → α} {x : Except Fault α} {y : Except Fault β}

theorem moved_pure (f : β → α) (b : β) : Moved f (pure (f b)) (pure b) := by
  intro a
  constructor
  · intro returns
    exact ⟨b, rfl, (pure_eq_ok.mp returns).symm⟩
  · rintro ⟨_, returns, rfl⟩
    rw [pure_eq_ok.mp returns]
    rfl

theorem moved_refl (x : Except Fault α) : Moved id x x := by
  intro a
  simp

theorem moved_error (f : β → α) (fault fault' : Fault)
    : Moved f (.error fault) (.error fault') := by
  intro a
  simp

/-- Computations one after the other are moved when each is. -/
theorem Moved.bind {g : α → Except Fault γ} {h : β → Except Fault δ} {k : δ → γ}
    (first : Moved f x y) (later : ∀ b, Moved k (g (f b)) (h b))
    : Moved k (x >>= g) (y >>= h) := by
  intro c
  rw [bind_eq_ok]
  simp only [bind_eq_ok]
  constructor
  · rintro ⟨a, start, rest⟩
    obtain ⟨b, start', rfl⟩ := (first a).mp start
    obtain ⟨d, rest', rfl⟩ := (later b c).mp rest
    exact ⟨d, ⟨b, start', rest'⟩, rfl⟩
  · rintro ⟨d, ⟨b, start', rest'⟩, rfl⟩
    exact ⟨f b, (first _).mpr ⟨b, start', rfl⟩, (later b _).mpr ⟨d, rest', rfl⟩⟩

/-- So are branches. -/
theorem Moved.ite {x' : Except Fault α} {y' : Except Fault β} {c : Prop} [Decidable c]
    (yes : Moved f x y) (no : Moved f x' y')
    : Moved f (if c then x else x') (if c then y else y') := by
  split
  · exact yes
  · exact no

theorem Moved.eq_ok {y : Except Fault α} (h : Moved id x y) {a : α} : x = .ok a ↔ y = .ok a := by
  rw [h a]
  simp

end

-----------------------------------------------------------------------------------------
-- Behind other bytes
-----------------------------------------------------------------------------------------

section

variable {front m : List Byte} {off i : Nat}

theorem moved_rd (start : off = front.length + i)
    : Moved id (rd (front ++ m) off) (rd m i) := by
  subst start
  have same : (front ++ m)[front.length + i]? = m[i]? := by
    rw [List.getElem?_append_right (Nat.le_add_right _ _), Nat.add_sub_cancel_left]
  rw [rd, rd, same]
  cases m[i]? with
  | some b => exact moved_refl _
  | none => exact moved_error _ _ _

theorem moved_rd16 (start : off = front.length + i)
    : Moved id (rd16 (front ++ m) off) (rd16 m i) :=
  (moved_rd start).bind fun _ => (moved_rd (by omega)).bind fun _ => moved_refl _

theorem moved_rd32 (start : off = front.length + i)
    : Moved id (rd32 (front ++ m) off) (rd32 m i) :=
  (moved_rd start).bind fun _ => (moved_rd (by omega)).bind fun _ =>
    (moved_rd (by omega)).bind fun _ => (moved_rd (by omega)).bind fun _ => moved_refl _

theorem moved_rdBytes {n : Nat} (start : off = front.length + i)
    : Moved id (rdBytes (front ++ m) off n) (rdBytes m i n) := by
  subst start
  have same : slice (front ++ m) (front.length + i) n = slice m i n := by
    have fits : front.length + i + n ≤ (front ++ m).length ↔ i + n ≤ m.length := by
      rw [List.length_append]
      omega
    have bytes : (front ++ m).drop (front.length + i) = m.drop i := by
      rw [← List.drop_drop, List.drop_left]
    simp only [slice, fits, bytes]
  rw [rdBytes, rdBytes, same]
  cases slice m i n with
  | some bs => exact moved_refl _
  | none => exact moved_error _ _ _

theorem moved_rdString (start : off = front.length + i)
    : Moved id (rdString (front ++ m) off) (rdString m i) := by
  subst start
  have text : (front ++ m).drop (front.length + i) = m.drop i := by
    rw [← List.drop_drop, List.drop_left]
  rw [rdString, rdString, text]
  exact Moved.ite (moved_refl _) (moved_error _ _ _)

theorem moved_addrToPrefix (af : Int) (len : Nat) (pfx : Prefix) (start : off = front.length + i)
    : Moved id (addrToPrefix af (front ++ m) off len pfx) (addrToPrefix af m i len pfx) :=
  Moved.ite ((moved_rdBytes start).bind fun _ => moved_refl _)
    (Moved.ite ((moved_rdBytes start).bind fun _ => moved_refl _) (moved_refl _))

theorem moved_fillSockaddr (af : Int) (sa : SockaddrStorage) (start : off = front.length + i)
    : Moved id (fillSockaddr af sa (front ++ m) off) (fillSockaddr af sa m i) :=
  Moved.ite ((moved_rdBytes start).bind fun _ => moved_refl _)
    (Moved.ite ((moved_rdBytes start).bind fun _ => moved_refl _) (moved_refl _))

theorem moved_recordPrefix (start : off = front.length + i)
    : Moved id (recordPrefix (front ++ m) off) (recordPrefix m i) :=
  (moved_rd16 (by omega)).bind fun _ => (moved_rd (by omega)).bind fun _ =>
    moved_addrToPrefix _ _ _ (by omega)

theorem moved_recordLocIsZero (lisp : Lisp) (start : off = front.length + i)
    : Moved id (processLispMapReplyRecordLocIsZero (front ++ m) off lisp)
        (processLispMapReplyRecordLocIsZero m i lisp) := by
  refine (moved_recordPrefix start).bind fun pfx => (moved_rd (by omega)).bind fun byte => ?_
  dsimp only [id]
  generalize (byte >>> 5).toNat = act
  match act with
  | 0 | 1 | 2 | 3 => exact moved_refl _
  | _ + 4 =>
      exact (moved_rd16 (by omega)).bind fun afi => (moved_rdString (by omega)).bind fun text =>
        moved_refl (formatString (inetPton (lispafiToAf afi) text) >>= fun _ => pure lisp)

theorem moved_lispLocatorPktToLocator (start : off = front.length + i)
    : Moved id (lispLocatorPktToLocator (front ++ m) off) (lispLocatorPktToLocator m i) :=
  (moved_rd16 (by omega)).bind fun _ => (moved_fillSockaddr _ _ (by omega)).bind fun _ =>
    (moved_rd start).bind fun _ => (moved_rd (by omega)).bind fun _ =>
      (moved_rd (by omega)).bind fun _ => (moved_rd (by omega)).bind fun _ => moved_refl _

/-- The selection loop is moved with both of its offsets; by induction on the locators. -/
theorem moved_selectLocator (n : Nat) {j next : Nat} (start : off = front.length + i)
    (current : next = front.length + j)
    : Moved (fun r => (front.length + r.1, front.length + r.2))
        (selectLocator (front ++ m) n off next) (selectLocator m n i j) := by
  induction n generalizing off i next j with
  | zero =>
      subst start current
      exact moved_pure (fun r : Nat × Nat => (front.length + r.1, front.length + r.2)) (i, j)
  | succ n ih =>
      refine (moved_rd start).bind fun selected => (moved_rd current).bind fun offered =>
        (moved_rd16 (by omega)).bind fun afi => ih ?_ (by dsimp only [id]; omega)
      dsimp only [id]
      split <;> assumption

/-- What a record returns, with the offset reached moved. -/
def moveNext (distance : Nat) (result : Lisp × Nat × Bool) : Lisp × Nat × Bool :=
  (result.1, distance + result.2.1, result.2.2)

theorem moved_next (distance : Nat) (lisp : Lisp) (next : Nat) (more : Bool)
    : Moved (moveNext distance) (pure (lisp, distance + next, more)) (pure (lisp, next, more)) :=
  moved_pure (moveNext distance) (lisp, next, more)

/-- A record that is moved does the same. -/
theorem moved_mapReplyRecord (lisp : Lisp) (start : off = front.length + i)
    : Moved (moveNext front.length) (mapReplyRecord (front ++ m) off lisp)
        (mapReplyRecord m i lisp) := by
  subst start
  refine (moved_rd16 (by omega)).bind fun afi => (moved_rd (by omega)).bind fun count =>
    Moved.ite ?_ ?_
  · refine (moved_recordLocIsZero lisp rfl).bind fun lisp' => ?_
    dsimp only [id]
    rw [Nat.add_assoc]
    exact moved_next _ _ _ _
  · dsimp only [id]
    rw [Nat.add_assoc]
    refine (moved_selectLocator _ rfl rfl).bind fun found => (moved_recordPrefix rfl).bind
      fun pfx => (moved_refl _).bind fun hit => ?_
    cases hit with
    | some hit => exact moved_next _ _ _ _
    | none =>
        refine (moved_rd32 rfl).bind fun recordTtl =>
          (moved_lispLocatorPktToLocator rfl).bind fun locator => (moved_refl _).bind
            fun updated => Moved.ite ?_ ?_
        · exact moved_next _ _ _ _
        · exact moved_next _ _ _ _

end

-----------------------------------------------------------------------------------------
-- A record's own bytes
-----------------------------------------------------------------------------------------

/-- The bytes of a record. -/
def recordBytes (pkt : List Byte) (record : Nat) : List Byte :=
  (pkt.drop record).take (recordEnd pkt record - record)

section

variable {pkt : List Byte} {record : Nat}

/-- A record has its fixed part and an address at least. -/
theorem le_recordEnd
    : record + 16 ≤ recordLocators pkt record
      ∧ recordLocators pkt record ≤ recordEnd pkt record := by
  refine ⟨?_, le_locatorsEnd _ _⟩
  rcases lispRecordPktLen_eq (recordAfi pkt record) with h | h
  · rw [recordLocators, h.1]
  · rw [recordLocators, h.1]
    omega

theorem recordBytes_length (inside : RecordInside pkt record)
    : (recordBytes pkt record).length = recordEnd pkt record - record := by
  have fits : recordEnd pkt record ≤ pkt.length := inside
  rw [recordBytes, List.length_take, List.length_drop]
  omega

theorem byteAt_recordBytes {i : Nat} (lt : record + i < recordEnd pkt record)
    : byteAt (recordBytes pkt record) i = byteAt pkt (record + i) := by
  rw [byteAt, byteAt, List.getD, List.getD, recordBytes, List.getElem?_take_of_lt (by omega),
    List.getElem?_drop]

theorem field16_recordBytes {i : Nat} (lt : record + i + 1 < recordEnd pkt record)
    : field16 (recordBytes pkt record) i = field16 pkt (record + i) := by
  rw [field16, field16, byteAt_recordBytes (by omega), byteAt_recordBytes (by omega),
    Nat.add_assoc]

/-- The locators end at the same place among the record's bytes; by induction on them. -/
theorem locatorsEnd_recordBytes {n off : Nat}
    (fits : locatorsEnd pkt n (record + off) ≤ recordEnd pkt record)
    : locatorsEnd pkt n (record + off) = record + locatorsEnd (recordBytes pkt record) n off := by
  induction n generalizing off with
  | zero => rfl
  | succ n ih =>
      rw [locatorsEnd, Nat.add_assoc] at fits
      have beyond
          : record + (off + lispLocatorPktLen (locatorAfi pkt (record + off)))
            ≤ locatorsEnd pkt n
              (record + (off + lispLocatorPktLen (locatorAfi pkt (record + off)))) :=
        le_locatorsEnd _ _
      have afi : locatorAfi (recordBytes pkt record) off = locatorAfi pkt (record + off) := by
        have size := lispLocatorPktLen_eq (locatorAfi pkt (record + off))
        rw [locatorAfi, locatorAfi, field16_recordBytes (by omega), Nat.add_assoc]
      rw [locatorsEnd, locatorsEnd, Nat.add_assoc, ih fits, afi]

/-- The fields of a record are those of its bytes. -/
theorem recordBytes_fields
    : recordLocatorCount (recordBytes pkt record) 0 = recordLocatorCount pkt record
      ∧ recordAct (recordBytes pkt record) 0 = recordAct pkt record
      ∧ record + recordEnd (recordBytes pkt record) 0 = recordEnd pkt record := by
  obtain ⟨fixed, behind⟩ := @le_recordEnd pkt record
  have count : recordLocatorCount (recordBytes pkt record) 0 = recordLocatorCount pkt record := by
    rw [recordLocatorCount, recordLocatorCount, Nat.zero_add, byteAt_recordBytes (by omega)]
  have afi : recordAfi (recordBytes pkt record) 0 = recordAfi pkt record := by
    rw [recordAfi, recordAfi, Nat.zero_add, field16_recordBytes (by omega)]
  refine ⟨count, ?_, ?_⟩
  · rw [recordAct, recordAct, Nat.zero_add, byteAt_recordBytes (by omega)]
  · rw [recordEnd, count, recordLocators, afi, Nat.zero_add]
    exact (locatorsEnd_recordBytes (Nat.le_refl _)).symm

/-- A whole record with a known action is read inside. -/
theorem RecordInside.reads {lisp : Lisp} (inside : RecordInside pkt record)
    (known : recordLocatorCount pkt record = 0 → recordAct pkt record ≤ 3)
    : RecordReads pkt record lisp := by
  refine ⟨inside.header, fun empty more => absurd (known empty) (by omega), fun located => ?_⟩
  have each := eachLocator_inside inside
  have fixed (lisploc : Nat)
      (fits : lisploc + lispLocatorPktLen (locatorAfi pkt lisploc) ≤ pkt.length)
      : LocatorInside pkt lisploc := by
    have size := lispLocatorPktLen_eq (locatorAfi pkt lisploc)
    rw [LocatorInside]
    omega
  refine ⟨each.imp fixed, fun _ _ _ => ?_⟩
  have selected := each.recordSelected located
  have room := (addrLen_le (locatorAfi pkt (recordSelected pkt record))).1
  simp only [sizeofLispLocator] at room
  omega

/-- A whole record with a known action does in its datagram what its bytes do. -/
theorem moved_recordBytes (lisp : Lisp) (inside : RecordInside pkt record)
    (known : recordLocatorCount pkt record = 0 → recordAct pkt record ≤ 3)
    : Moved (moveNext record) (mapReplyRecord pkt record lisp)
        (mapReplyRecord (recordBytes pkt record) 0 lisp) := by
  obtain ⟨count, act, fin⟩ := @recordBytes_fields pkt record
  have fits : recordEnd pkt record ≤ pkt.length := inside
  have start : (pkt.take record).length = record := List.length_take_of_le (by omega)
  have own : RecordInside (recordBytes pkt record) 0 := by
    rw [RecordInside, recordBytes_length inside]
    omega
  have parts : pkt.take record ++ (recordBytes pkt record ++ pkt.drop (recordEnd pkt record))
      = pkt := by
    have behind : pkt.drop (recordEnd pkt record)
        = (pkt.drop record).drop (recordEnd pkt record - record) := by
      rw [List.drop_drop]
      congr 1
      omega
    rw [behind, recordBytes, List.take_append_drop, List.take_append_drop]
  have alone := confined_mapReplyRecord 0 lisp (recordBytes pkt record)
    (pkt.drop (recordEnd pkt record))
    (inside_mapReplyRecord.mpr (own.reads (by rw [count, act]; exact known)))
  have moved := @moved_mapReplyRecord (pkt.take record)
    (recordBytes pkt record ++ pkt.drop (recordEnd pkt record)) record 0 lisp start.symm
  dsimp only at alone
  rw [parts, start, alone] at moved
  exact moved

end

end Lixy
