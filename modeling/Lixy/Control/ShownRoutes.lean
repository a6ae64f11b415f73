import Lixy.Daemon.StaticImmunity
import Lixy.Control.AddressTexts
import Lixy.Control.RouteAnswers
import Lixy.Control.RouteListing

/-! The text of the route listing, from the daemon to the user and back: the prefix that a line
begins with names the line's entry again, so that a static route is deleted by what is shown of it.
-/

namespace Lixy.Control

open ByteStrings
open EventRuns (run)

-----------------------------------------------------------------------------------------
-- The text of a line
-----------------------------------------------------------------------------------------

/-- `mapstate_string` -/
def mapstateString : MapState → List Byte
  | .active => ascii "active"
  | .negative => ascii "negative"
  | .drop => ascii "drop"
  | .queried => ascii "queried"
  | .static => ascii "static"

section

variable (inetNtop6 : Bytes 16 → List Byte)

/-- `addrbuf1`: `inet_ntop` of the address, with the one for AF_INET6 as a parameter. For another
family the buffer is left zeroed.
-/
def dstText (dst : Prefix) : List Byte :=
  if dst.family = afInet then
    inetNtop4 (sin dst.add)
  else if dst.family = afInet6 then
    inetNtop6 dst.add
  else
    []

/-- "%s/%d" -/
def prefixText (dst : Prefix) : List Byte := dstText inetNtop6 dst ++ 0x2f :: decimal dst.bitlen

/-- `addrbuf2`: the locator's address, or nothing for another family. -/
def viaText (addr : SockaddrStorage) : List Byte :=
  if addr.family = afInet then
    inetNtop4 addr.sinAddr
  else if addr.family = afInet6 then
    inetNtop6 addr.sin6Addr
  else
    []

/-- The line that `cmd_show_route` writes for an entry: "%s/%d via %s %s\n", cut to its buffer. -/
def routeText (dst : Prefix) (via : SockaddrStorage) (state : MapState) : List Byte :=
  (snprintf controlMsgBufLen
    (prefixText inetNtop6 dst ++ ascii " via " ++ viaText inetNtop6 via ++ ascii " "
      ++ mapstateString state ++ ascii "\n")).1

end

/-- What stands in front of the first blank. -/
def firstWord (line : List Byte) : List Byte := line.takeWhile (· ≠ 0x20)

-----------------------------------------------------------------------------------------
-- Reading a prefix back
-----------------------------------------------------------------------------------------

/-- The text of an IPv6 address as `inet_ntop` makes it: `inet_pton` reads it as the address, it
has neither blanks nor slashes and it fits 46 bytes.
-/
structure Presents (inetPton6 : List Byte → Option (Bytes 16)) (text : List Byte)
    (add : Bytes 16) : Prop where
  reads : inetPton6 text = some add
  plain : Plain text
  noSlash : (0x2f : Byte) ∉ text
  short : text.length < 46

section

variable {inetPton6 : List Byte → Option (Bytes 16)} {inetNtop6 : Bytes 16 → List Byte}
  {pfx : Prefix}

/-- `atol` reads the number of a numeral that fits a long. -/
theorem atol_numeral {numeral : Numeral} (small : numeral.value < 2 ^ 63)
    : atol numeral.text = numeral.value := by
  obtain ⟨c, rest, text_eq⟩ := List.exists_cons_of_ne_nil numeral.nonempty
  obtain ⟨notSpace, noMinus, noPlus⟩ := not_isSpace_of_isDigit
    (numeral.isDigit c (by simp [text_eq]))
  have read : digits (c :: rest) = numeral.value := by rw [← text_eq, digits_numeral]
  rw [atol, text_eq, List.dropWhile_cons_of_neg (by simp [notSpace])]
  dsimp only
  rw [if_neg noMinus, if_neg noPlus, read, min_eq_left (by omega)]

/-- A printed length is read back. -/
theorem lengthText_decimal {n : Nat} (small : n < 2 ^ 63) : lengthText (decimal n) = n := by
  have read : atol (decimal n) = n := by
    have numeral := decimalNumeral_value n
    have value := atol_numeral (numeral.symm ▸ small : (decimalNumeral n).value < 2 ^ 63)
    rwa [numeral] at value
  rw [lengthText, read]
  omega

/-- A number below 1000 takes three digits at most. -/
theorem decimal_length {n : Nat} (small : n < 1000) : (decimal n).length ≤ 3 := by
  rw [decimal, List.length_map]
  exact (Nat.length_toDigits_le_iff (by decide) (by decide)).mpr small

/-- An IPv4 address takes 15 bytes at most. -/
theorem inetNtop4_length (addr : Bytes 4) : (inetNtop4 addr).length ≤ 15 := by
  obtain ⟨octets, four⟩ := addr
  match octets, four with
  | [b₀, b₁, b₂, b₃], _ =>
      have digits (b : Byte) : (decimal b.toNat).length ≤ 3 :=
        decimal_length (Nat.lt_trans b.isLt (by decide))
      have := digits b₀
      have := digits b₁
      have := digits b₂
      have := digits b₃
      simp only [inetNtop4, List.Vector.toList_mk, List.map_cons, List.map_nil, List.intercalate,
        List.intersperse, List.flatten_cons, List.flatten_nil, List.length_append,
        List.length_cons, List.length_nil]
      omega

/-- A digit is printable. -/
theorem printable_of_isDigit {c : Byte} (digit : isDigit c = true) : 0x20 < c ∧ c < 0x7f := by
  have bounds : 0x30 ≤ c ∧ c ≤ 0x39 := by simpa [isDigit] using digit
  exact ⟨by bv_omega, by bv_omega⟩

/-- Digits and dots are printable. -/
theorem plain_dotted {fields : List Octet} (nonempty : fields ≠ []) : Plain (dotted fields) := by
  refine ⟨fun none => ?_, fun c mem => ?_⟩
  · obtain ⟨field, rest, rfl⟩ := List.exists_cons_of_ne_nil nonempty
    cases rest with
    | nil => exact field.nonempty (dotted_singleton field ▸ none)
    | cons next rest =>
        rw [dotted_cons_cons] at none
        simp at none
  · rcases mem_dotted mem with digit | rfl
    · exact printable_of_isDigit digit
    · decide

/-- The address of a valid prefix is printed in one short word without slash. -/
theorem dstText_plain (valid : pfx.Valid)
    (presents : pfx.family = afInet6 → Presents inetPton6 (inetNtop6 pfx.add) pfx.add)
    : Plain (dstText inetNtop6 pfx) ∧ (0x2f : Byte) ∉ dstText inetNtop6 pfx
        ∧ (dstText inetNtop6 pfx).length < 46 := by
  rcases valid with ⟨inet, _⟩ | ⟨inet6, _⟩
  · have length := inetNtop4_length (sin pfx.add)
    rw [dstText, if_pos inet]
    rw [← dotted_octetsOf] at length ⊢
    exact ⟨plain_dotted (octetsOf_ne_nil _), slash_notMem_dotted _, by omega⟩
  · have shown := presents inet6
    rw [dstText, inet6, if_neg (by decide), if_pos rfl]
    exact ⟨shown.plain, shown.noSlash, shown.short⟩

/-- The text of a valid prefix is read as a copy of the prefix. -/
theorem ascii2prefix_prefixText (valid : pfx.Valid)
    (presents : pfx.family = afInet6 → Presents inetPton6 (inetNtop6 pfx.add) pfx.add)
    : ascii2prefix inetPton6 pfx.family (prefixText inetNtop6 pfx)
      = .ok (newPrefix pfx.family pfx.add pfx.bitlen) := by
  obtain ⟨_, noSlash, short⟩ := dstText_plain valid presents
  have length : lengthText (decimal pfx.bitlen) = pfx.bitlen :=
    lengthText_decimal (Nat.lt_of_le_of_lt valid.bitlen_le (by decide))
  rw [prefixText, ascii2prefix_slash noSlash, if_pos (by omega), length]
  rcases valid with ⟨inet, bound⟩ | ⟨inet6, bound⟩
  · have parsed : myInetPton (dstText inetNtop6 pfx)
        = some (setSin (octetAddr (octetsOf (sin pfx.add))) (zeros 16)) := by
      rw [dstText, if_pos inet, ← dotted_octetsOf]
      exact myInetPton_eq_some.mpr
        ⟨_, octetsOf_ne_nil _, by simp [octetsOf], rfl, rfl⟩
    rw [if_pos inet, parsed, octetAddr_octetsOf, Option.bind_some, inet, Lixy.ascii2prefix,
      if_pos rfl, newPrefix, if_pos rfl, newPrefix, if_pos rfl, sin_setSin, Option.getD_some,
      min_eq_left bound]
  · have parsed : inetPton6 (dstText inetNtop6 pfx) = some pfx.add := by
      rw [dstText, inet6, if_neg (by decide), if_pos rfl]
      exact (presents inet6).reads
    rw [inet6, if_neg (by decide), parsed, Option.bind_some, Lixy.ascii2prefix,
      if_neg (by decide), if_pos rfl, Option.getD_some, min_eq_left bound]

/-- The text of a valid prefix is one word of 49 bytes at most. -/
theorem prefixText_plain (valid : pfx.Valid)
    (presents : pfx.family = afInet6 → Presents inetPton6 (inetNtop6 pfx.add) pfx.add)
    : Plain (prefixText inetNtop6 pfx) ∧ (prefixText inetNtop6 pfx).length ≤ 49 := by
  obtain ⟨plain, _, short⟩ := dstText_plain valid presents
  have length := decimal_length (Nat.lt_of_le_of_lt valid.bitlen_le (by decide : 128 < 1000))
  refine ⟨⟨by simp [prefixText], fun c mem => ?_⟩, ?_⟩
  · rcases List.mem_append.mp mem with address | behind
    · exact plain.2 c address
    · rcases List.mem_cons.mp behind with rfl | digit
      · decide
      · exact printable_of_isDigit (isDigit_of_mem_decimal digit)
  · rw [prefixText, List.length_append, List.length_cons]
    omega

/-- A line begins with the text of its prefix. -/
theorem firstWord_routeText (valid : pfx.Valid)
    (presents : pfx.family = afInet6 → Presents inetPton6 (inetNtop6 pfx.add) pfx.add)
    (via : SockaddrStorage) (state : MapState)
    : firstWord (routeText inetNtop6 pfx via state) = prefixText inetNtop6 pfx := by
  obtain ⟨plain, length⟩ := prefixText_plain valid presents
  have noBlank : ∀ c ∈ prefixText inetNtop6 pfx, decide (c ≠ 0x20) = true := by
    intro c mem
    have above := (plain.2 c mem).1
    exact decide_eq_true (by bv_omega)
  obtain ⟨rest, line⟩
      : ∃ rest, routeText inetNtop6 pfx via state
        = (prefixText inetNtop6 pfx ++ 0x20 :: rest).take (controlMsgBufLen - 1) := by
    refine ⟨ascii "via " ++ (viaText inetNtop6 via
      ++ (ascii " " ++ (mapstateString state ++ ascii "\n"))), ?_⟩
    simp only [routeText, snprintf, List.append_assoc]
    rfl
  obtain ⟨room, behind⟩
      : ∃ room, controlMsgBufLen - 1 - (prefixText inetNtop6 pfx).length = room + 1 :=
    ⟨1023 - (prefixText inetNtop6 pfx).length - 1, by
      simp only [controlMsgBufLen]
      omega⟩
  rw [firstWord, line, List.take_append, behind,
    List.take_of_length_le (by simp only [controlMsgBufLen]; omega), List.take_succ_cons,
    List.takeWhile_append_of_pos noBlank, List.takeWhile_cons_of_neg (by decide), List.append_nil]

end

-----------------------------------------------------------------------------------------
-- What is listed
-----------------------------------------------------------------------------------------

section

variable {junk : Junk} {args : Args} {st st' : Lixyd} {lines : List ShowLine}

/-- A line of the route listing is that of an entry. -/
theorem cmdShowRoute_entry {af : Nat} {type : Option MapState} {res : ReturnType} {dst : Prefix}
    {via : SockaddrStorage} {state : MapState} (ok : TableOk st.lisp.rib)
    (documented : args 2 = type.map typeWord)
    (shown : cmdShowRoute junk args af st = .ok (res, lines, st'))
    (line : .route dst via state ∈ lines)
    : ∃ mn, (dst, mn) ∈ st.lisp.rib.entries ∧ mn.addr = via ∧ mn.state = state := by
  rw [cmdShowRoute_lines ok documented] at shown
  obtain ⟨_, rest⟩ := Prod.mk.inj (Except.ok.inj shown)
  obtain ⟨rfl, _⟩ := Prod.mk.inj rest
  obtain ⟨e, among, same⟩ := List.mem_map.mp line
  obtain ⟨rfl, rfl, rfl⟩ := ShowLine.route.inj same
  have mem : e ∈ reached (breaksOff af type) st.lisp.head := List.mem_of_mem_filter among
  exact ⟨e.2, (ok.wf.mem_reached.mp mem).1, rfl, rfl⟩

/-- A route that `show` lists is that of an entry. -/
theorem configShow_entry {type : Option MapState} {res : ReturnType} {dst : Prefix}
    {via : SockaddrStorage} {state : MapState} (ok : TableOk st.lisp.rib)
    (documented : args 2 = type.map typeWord)
    (shown : configShow junk args st = .ok (res, lines, st'))
    (line : .route dst via state ∈ lines)
    : ∃ mn, (dst, mn) ∈ st.lisp.rib.entries ∧ mn.addr = via ∧ mn.state = state := by
  unfold configShow at shown
  split at shown
  · cases shown
    cases line
  · obtain ⟨isFour, _, shown⟩ := bind_eq_ok.mp shown
    split at shown
    · exact cmdShowRoute_entry ok documented shown line
    · obtain ⟨isSix, _, shown⟩ := bind_eq_ok.mp shown
      split at shown
      · exact cmdShowRoute_entry ok documented shown line
      · -- the other listings have no such line
        obtain ⟨isEid, _, shown⟩ := bind_eq_ok.mp shown
        split at shown
        · unfold cmdShowEid at shown
          split at shown
          · split at shown <;> cases shown <;> simp at line
          · cases shown
            simp at line
        · obtain ⟨isMapserver, _, shown⟩ := bind_eq_ok.mp shown
          split at shown
          · cases shown
            simp at line
          · obtain ⟨isLocator, _, shown⟩ := bind_eq_ok.mp shown
            split at shown <;> cases shown <;> simp at line

end

-----------------------------------------------------------------------------------------
-- Deleting what is shown
-----------------------------------------------------------------------------------------

/-- A STATIC entry's own prefix is deleted. -/
theorem uninstallMapnodeStatic_own {lisp : Lisp} {pfx : Prefix} {e : Prefix × Mapnode}
    (clean : Clean lisp) (short : pfx.bitlen ≤ 128) (stored : lisp.rib.store pfx.key = some e)
    (static : e.2.state = .static)
    : ∃ lisp', uninstallMapnodeStatic lisp pfx = .ok (lisp', true) := by
  have own := LongestPrefix.best_self stored
  obtain ⟨⟨rib, mn⟩, deletion⟩ := deleteMapnode_total clean.1 clean.2 short
  rw [uninstallMapnodeStatic]
  rcases searchMapnode_spec clean.1 short with ⟨none, _⟩ | ⟨e', z, found, search, _⟩
  · rw [own] at none
    cases none
  · obtain rfl : e = e' := (Prod.mk.inj (Option.some.inj (own.symm.trans found))).2
    simp only [search, deletion, bind, Except.bind, static]
    exact ⟨_, rfl⟩

/-- The word for a family in a route command. -/
def familyWord (family : Nat) : List Byte :=
  if family = afInet then ascii "ipv4" else ascii "ipv6"

/-- lixyctl's arguments for the deletion of a route, by a line that shows it. -/
def deleteShown (family : Nat) (line : List Byte) : List (List Byte) :=
  [ascii "route", familyWord family, firstWord line, ascii "delete"]

/-- A word of the right length makes it through lixyctl and the splitting of the message. -/
theorem deleteShown_sent {lib : Library} {junk : Junk} {family : Nat} {line : List Byte}
    {st : Lixyd} (plain : Plain (firstWord line)) (short : (firstWord line).length ≤ 49)
    : ∃ cmdstr, lixyctl (deleteShown family line) = .sends cmdstr
        ∧ lispOpThread lib junk cmdstr st = configRoute lib ((deleteShown family line)[·]?) st := by
  have word : Plain (familyWord family) ∧ (familyWord family).length = 4 := by
    unfold familyWord
    split <;> decide
  have words : ∀ arg ∈ deleteShown family line, Plain arg := by
    intro arg mem
    simp only [deleteShown, List.mem_cons, List.not_mem_nil, or_false] at mem
    rcases mem with rfl | rfl | rfl | rfl
    · decide
    · exact word.1
    · exact plain
    · decide
  have length : (joined (deleteShown family line)).length ≤ 68 := by
    have constants : (ascii "route").length = 5 ∧ (ascii "delete").length = 6 := by decide
    rw [joined_length]
    simp only [lineLength, deleteShown, List.map_cons, List.map_nil, List.sum_cons, List.sum_nil]
    omega
  have given : deleteShown family line ≠ [] := List.cons_ne_nil _ _
  have sent := lixyctl_eq given
    ⟨by simp [deleteShown]; decide, by simp [deleteShown]; decide⟩ fun arg mem => (words arg mem).1
  have split := @splitMessage_joined (deleteShown family line) [] given words (by simp)
    (by rw [List.append_nil]; exact Nat.lt_of_le_of_lt length (by decide))
  rw [joined_length] at length
  rw [if_pos (Nat.le_trans length (by decide)),
    List.take_of_length_le (by rw [joined_length]; exact Nat.le_trans length (by decide))] at sent
  rw [List.append_nil, if_neg (by simp [deleteShown, controlArgsMax])] at split
  refine ⟨_, sent, ?_⟩
  rw [lispOpThread, split]
  rfl

/-- The words delete the prefix that they name. -/
theorem configRoute_deleteShown {lib : Library} {family : Nat} {line : List Byte} {read : Prefix}
    {st : Lixyd} {lisp : Lisp} (known : family = afInet ∨ family = afInet6)
    (parsed : ascii2prefix lib.inetPton6 family (firstWord line) = .ok (some read))
    (deleted : uninstallMapnodeStatic st.lisp read = .ok (lisp, true))
    : configRoute lib ((deleteShown family line)[·]?) st = .ok (.success, { st with lisp }) := by
  have named : routeFamily (some (familyWord family)) = .ok (some family) := by
    rcases known with rfl | rfl <;> rfl
  have uninstalls : cmdUninstallRoute lib ((deleteShown family line)[·]?) st
      = .ok (.success, { st with lisp }) := by
    have second : (deleteShown family line)[1]? = some (familyWord family) := rfl
    have third : (deleteShown family line)[2]? = some (firstWord line) := rfl
    simp only [cmdUninstallRoute, second, third, named, present, parsed, deleted, call, answer,
      bind, Except.bind, Except.mapError]
  exact uninstalls

/-- Events other than a deletion leave a STATIC entry in place. -/
theorem pinned_stays {lisp lisp' : Lisp} {pfx : Prefix} {addr : SockaddrStorage}
    {events : List Event} (ok : TableOk lisp.rib) (pinned : lisp.view.Pinned pfx addr)
    (kept : ∀ ev ∈ events, ∀ dst, ev ≠ .uninstallRoute dst)
    (done : run step lisp events = .ok lisp')
    : lisp'.view.Pinned pfx addr :=
  (@EventRuns.Guarded.invariant _ _ _ step
    (fun lisp : Lisp => TableOk lisp.rib ∧ lisp.view.Pinned pfx addr) _ _ _ _
    (EventRuns.guarded_of_forall kept lisp)
    (fun _ _ _ inv other done => ⟨(step_writes inv.1 done).1, inv.2.step inv.1 other done⟩)
    ⟨ok, pinned⟩ done).2

/-- A copy of a valid prefix stands for the same addresses and the same route. -/
theorem newPrefix_same {pfx : Prefix} (valid : pfx.Valid)
    : ∃ copy, newPrefix pfx.family pfx.add pfx.bitlen = some copy ∧ copy.Valid
        ∧ copy.family = pfx.family ∧ copy.key = pfx.key ∧ copy.route = pfx.route := by
  let uncounted : Prefix := { pfx with refCount := 0 }
  have valid' : uncounted.Valid := valid
  obtain ⟨copy, copied⟩ : ∃ copy, refPrefix uncounted = some copy := by
    rcases valid with ⟨inet, _⟩ | ⟨inet6, _⟩
    · exact ⟨_, by rw [refPrefix, if_pos rfl, newPrefix, if_pos inet]⟩
    · exact ⟨_, by
        rw [refPrefix, if_pos rfl, newPrefix, if_neg (by rw [inet6]; decide), if_pos inet6]⟩
  obtain ⟨family, bitlen, key⟩ := refPrefix_eq_some copied valid'.copyable
  have route : copy.route = uncounted.route := refPrefix_route copied
  refine ⟨copy, by rw [← copied, refPrefix, if_pos rfl], ?_, family, key, route⟩
  rw [Prefix.Valid, family, bitlen]
  exact valid'

/-- What `show` lists of a static route deletes it: after valid events the word that the line
begins with, given to lixyctl in a route command, is answered SUCCESS and removes the line's entry
and its route, and nothing else. This is so however many valid events other than a deletion come
in between, and whatever else is configured then.
-/
theorem shown_route_deletes {lib : Library} {inetNtop6 : Bytes 16 → List Byte} {junk junk' : Junk}
    {args : Args} {type : Option MapState} {before later : List Event} {st st' now : Lixyd}
    {res : ReturnType} {lines : List ShowLine} {dst : Prefix} {via : SockaddrStorage}
    (valid : ∀ ev ∈ before ++ later, ValidEvent ev)
    (reached : run step Lisp.start before = .ok st.lisp)
    (documented : args 2 = type.map typeWord)
    (shown : configShow junk args st = .ok (res, lines, st'))
    (line : .route dst via .static ∈ lines)
    (presents : dst.family = afInet6 → Presents lib.inetPton6 (inetNtop6 dst.add) dst.add)
    (kept : ∀ ev ∈ later, ∀ dst, ev ≠ .uninstallRoute dst)
    (passed : run step st.lisp later = .ok now.lisp)
    : ∃ cmdstr after,
        lixyctl (deleteShown dst.family (routeText inetNtop6 dst via .static)) = .sends cmdstr
        ∧ lispOpThread lib junk' cmdstr now = .ok (.success, after)
        ∧ Deleted now.lisp after.lisp dst := by
  have early : ∀ ev ∈ before, ValidEvent ev := fun ev mem => valid ev (List.mem_append_left _ mem)
  have ok := (clean_of_valid early reached).1
  have clean := clean_of_valid valid (EventRuns.run_append_eq_ok.mpr ⟨_, reached, passed⟩)
  obtain ⟨mn, mem, rfl, static⟩ := configShow_entry ok documented shown line
  have dstValid : dst.Valid := entries_valid early reached mem
  -- the entry is still there
  obtain ⟨mn', stored, static', _⟩ := pinned_stays ok
    ⟨mn, ok.store_self (e := (dst, mn)) mem, static, rfl⟩ kept passed
  -- what is read is a copy of its prefix
  obtain ⟨read, copied, readValid, family, key, route⟩ := newPrefix_same dstValid
  have word := firstWord_routeText dstValid presents mn.addr .static
  obtain ⟨plain, short⟩ := prefixText_plain dstValid presents
  have parsed := ascii2prefix_prefixText dstValid presents
  rw [copied] at parsed
  rw [← word] at plain short parsed
  have stored' : now.lisp.rib.store read.key = some (dst, mn') := key ▸ stored
  obtain ⟨lisp', deletion⟩ := uninstallMapnodeStatic_own clean readValid.bitlen_le stored' static'
  have deleted := (deleted_iff clean.1 readValid deletion).mpr
    ⟨(dst, mn'), entryAt_eq_some.mpr ⟨stored', family.symm⟩, static'⟩
  obtain ⟨cmdstr, sent, answered⟩ := @deleteShown_sent lib junk' dst.family _ now plain short
  refine ⟨cmdstr, _, sent, answered.trans (configRoute_deleteShown ?_ parsed deletion), ?_⟩
  · exact dstValid.imp And.left And.left
  · rw [Deleted, family, key, route] at deleted
    exact deleted

/-- A library for testing that knows one IPv6 address. -/
def sixLibrary : Library :=
  { testLibrary with
    inetPton6 := fun text => if text = ascii "a00::" then some tenSixRoute.address else none }

/-- Witness: the route for a00::/16, a pass of the TTL thread after it was shown. -/
theorem tenSixRoute_deleted
    : ∃ lisp lines dst cmdstr after,
        run step Lisp.start [.installRoute tenSixRoute .zero] = .ok lisp
        ∧ configShow testJunk showSix { Lixyd.start with lisp }
          = .ok (.successNoMessage, lines, { Lixyd.start with lisp })
        ∧ .route dst .zero .static ∈ lines
        ∧ lixyctl (deleteShown afInet6 (ascii "a00::/16 via  static\n")) = .sends cmdstr
        ∧ lispOpThread sixLibrary testJunk cmdstr { Lixyd.start with lisp } = .ok (.success, after)
        ∧ Deleted lisp after.lisp dst := by
  let ntop (_ : Bytes 16) : List Byte := ascii "a00::"
  let shownOf (lisp : Lisp) : Lixyd := { Lixyd.start with lisp }
  obtain ⟨lisp, dst, installed, inet6, add, text, shown, swept⟩
      : ∃ lisp dst, run step Lisp.start [.installRoute tenSixRoute .zero] = .ok lisp
        ∧ dst.family = afInet6 ∧ dst.add = tenSixRoute.address
        ∧ routeText ntop dst .zero .static = ascii "a00::/16 via  static\n"
        ∧ configShow testJunk showSix (shownOf lisp)
          = .ok (.successNoMessage, [.route dst .zero .static], shownOf lisp)
        ∧ run step lisp [.sweep] = .ok lisp :=
    ⟨_, _, rfl, rfl, rfl, by decide, rfl, rfl⟩
  have presents : Presents sixLibrary.inetPton6 (ntop dst.add) dst.add :=
    ⟨by rw [add]; rfl, by decide, by decide, by decide⟩
  obtain ⟨cmdstr, after, sent, answered, deleted⟩ :=
    @shown_route_deletes sixLibrary ntop testJunk testJunk showSix none
      [.installRoute tenSixRoute .zero] [.sweep] (shownOf lisp) _ (shownOf lisp) _ _ dst .zero
      (by simp [ValidEvent]) installed rfl shown (by simp) (fun _ => presents) (by simp) swept
  rw [inet6, text] at sent
  exact ⟨lisp, _, dst, cmdstr, after, installed, shown, by simp, sent, answered, deleted⟩

end Lixy.Control
