import Mathlib.Data.List.TakeWhile
import Mathlib.Data.Nat.Digits.Defs
import Lixy.Foundation.EventRuns
import Lixy.Foundation.Journals
import Lixy.Control.CommandEffects
import Lixy.Messages.RegisterLayout

/-! Histories of locator commands with their answers, and what is announced in a Map-Register
after them: the locators that stand, with the parameters last set.
-/

namespace Lixy.Control

open ByteStrings
open EventRuns (run Guarded)
open Journals (Entry standing)

-----------------------------------------------------------------------------------------
-- Decimal numerals
-----------------------------------------------------------------------------------------

/-- A decimal numeral. -/
structure Numeral where
  text : List Byte
  nonempty : text ≠ []
  isDigit : ∀ c ∈ text, isDigit c = true

/-- The number that a numeral stands for. -/
def Numeral.value (numeral : Numeral) : Nat := Nat.ofDigits 10 (numeral.text.reverse.map digit)

/-- Reading digits one by one, by induction on them. -/
theorem foldl_digit (text : List Byte) (val : Nat)
    : text.foldl (fun val c => val * 10 + digit c) val
      = val * 10 ^ text.length + Nat.ofDigits 10 (text.reverse.map digit) := by
  induction text generalizing val with
  | nil => simp
  | cons c rest ih =>
      rw [List.foldl_cons, ih, List.reverse_cons, List.map_append, Nat.ofDigits_append,
        List.map_singleton, Nat.ofDigits_singleton, List.length_map, List.length_reverse,
        List.length_cons]
      ring

theorem digits_numeral (numeral : Numeral) : digits numeral.text = numeral.value := by
  have all : numeral.text.takeWhile Control.isDigit = numeral.text :=
    List.takeWhile_eq_self_iff.mpr numeral.isDigit
  rw [digits, all, foldl_digit, Nat.zero_mul, Nat.zero_add, Numeral.value]

/-- A digit is neither blank nor sign. -/
theorem not_isSpace_of_isDigit {c : Byte} (h : isDigit c = true)
    : isSpace c = false ∧ c ≠ 0x2d ∧ c ≠ 0x2b := by
  have bounds : 0x30 ≤ c ∧ c ≤ 0x39 := by simpa [isDigit] using h
  obtain ⟨low, high⟩ := bounds
  refine ⟨?_, by bv_omega, by bv_omega⟩
  have ne : c ≠ 0x20 := by bv_omega
  have above : 0x0d < c := by bv_omega
  rw [isSpace, beq_eq_false_iff_ne.mpr ne, decide_eq_false (BitVec.not_le.mpr above)]
  simp

/-- `atoi` reads the number of a numeral that fits the 8 bits of a parameter. -/
theorem atoi_numeral {numeral : Numeral} (small : numeral.value ≤ 255)
    : atoi numeral.text = BitVec.ofNat 32 numeral.value := by
  obtain ⟨c, rest, text_eq⟩ := List.exists_cons_of_ne_nil numeral.nonempty
  obtain ⟨notSpace, noMinus, noPlus⟩ := not_isSpace_of_isDigit
    (numeral.isDigit c (by simp [text_eq]))
  have read : digits (c :: rest) = numeral.value := by rw [← text_eq, digits_numeral]
  rw [atoi, atol, text_eq, List.dropWhile_cons_of_neg (by simp [notSpace])]
  dsimp only
  rw [if_neg noMinus, if_neg noPlus, read, min_eq_left (by omega)]
  rfl

-----------------------------------------------------------------------------------------
-- Addresses
-----------------------------------------------------------------------------------------

/-- A family and the bytes of an address. -/
abbrev Address := Nat × List Byte

/-- The address that a name resolved to. -/
def AiAddr.address : AiAddr → Address
  | inet _ sinAddr _ => (afInet, sinAddr.toList)
  | inet6 _ _ sin6Addr _ => (afInet6, sin6Addr.toList)

/-- A socket address is one of this address. -/
def Denotes (sa : SockaddrStorage) (address : Address) : Prop :=
  sa.family = address.1 ∧ sa.addr = some address.2

/-- A resolved address is copied whole. -/
theorem denotes_copyTo (res : AiAddr) (old : SockaddrStorage)
    : Denotes (res.copyTo old) res.address := by
  cases res <;> exact ⟨rfl, rfl⟩

/-- Socket addresses compare equal when they are of one address. -/
theorem compareSockaddr_iff {s1 s2 : SockaddrStorage} {a1 a2 : Address} (h1 : Denotes s1 a1)
    (h2 : Denotes s2 a2)
    : compareSockaddr s1 s2 = true ↔ a1 = a2 := by
  obtain ⟨family1, addr1⟩ := h1
  obtain ⟨family2, addr2⟩ := h2
  have pair : a1 = a2 ↔ s1.family = s2.family ∧ s1.addr = s2.addr := by
    rw [family1, family2, addr1, addr2, Option.some.injEq]
    exact Prod.ext_iff
  rw [pair, compareSockaddr]
  by_cases same : s1.family = s2.family
  · rw [if_neg (not_not_intro same)]
    rcases familyAddr_eq_some.mp addr1 with ⟨inet, _⟩ | ⟨inet6, _⟩
    · rw [if_pos inet, beq_iff_eq, SockaddrStorage.addr, SockaddrStorage.addr, ← same, inet]
      simp only [familyAddr, if_true, Option.some.injEq, true_and]
      exact ⟨fun eq => congrArg _ eq, fun eq => List.Vector.eq _ _ eq⟩
    · have other : s1.family ≠ afInet := by
        rw [inet6]
        decide
      have different : afInet6 ≠ afInet := by decide
      rw [if_neg other, beq_iff_eq, SockaddrStorage.addr, SockaddrStorage.addr, ← same, inet6]
      simp only [familyAddr, if_neg different, if_true, Option.some.injEq, true_and]
      exact ⟨fun eq => congrArg _ eq, fun eq => List.Vector.eq _ _ eq⟩
  · simp [same]

-----------------------------------------------------------------------------------------
-- Locator commands
-----------------------------------------------------------------------------------------

/-- A command on a locator. -/
inductive LocatorCommand
  | create (addr : List Byte)
  | delete (addr : List Byte)
  | assign (addr : List Byte) (param : LocatorParam) (value : Numeral)

/-- The argument that names the locator. -/
def LocatorCommand.addr : LocatorCommand → List Byte
  | create addr => addr
  | delete addr => addr
  | assign addr _ _ => addr

/-- The words of a command. -/
def LocatorCommand.words : LocatorCommand → List (List Byte)
  | create addr => [ascii "locator", addr, ascii "create"]
  | delete addr => [ascii "locator", addr, ascii "delete"]
  | assign addr param value => [ascii "locator", addr, ascii param.name, value.text]

/-- A parameter of a locator. -/
def param (loc : Locator) : LocatorParam → Byte
  | .priority => loc.priority
  | .weight => loc.weight
  | .mPriority => loc.mPriority
  | .mWeight => loc.mWeight

section

variable {lib : Library} {junk : Junk} {st : Lixyd} {addr : List Byte}

theorem configLocator_create
    : configLocator lib junk ((LocatorCommand.create addr).words[·]?) st
      = cmdCreateLocator lib ((LocatorCommand.create addr).words[·]?) st := rfl

theorem configLocator_delete
    : configLocator lib junk ((LocatorCommand.delete addr).words[·]?) st
      = cmdDeleteLocator lib junk ((LocatorCommand.delete addr).words[·]?) st := rfl

/-- A name of a parameter is recognised. -/
theorem locatorParam_name (p : LocatorParam)
    : locatorParam (some (ascii p.name)) = .ok (some p) := by
  cases p <;> rfl

theorem configLocator_assign {p : LocatorParam} {value : Numeral}
    : configLocator lib junk ((LocatorCommand.assign addr p value).words[·]?) st
      = match lib.getaddrinfo (some addr) lispControlPort with
        | none => answer .errInvalidAddress st
        | some res =>
            match searchLocator ((junk.freed res).copyTo junk.sockaddr) st with
            | none => answer .errLocatorDoesNotExists st
            | some (place, loc) =>
                answer .success { st with
                  locTuple := st.locTuple.write place (setParam loc p (atoi value.text)) } := by
  have dispatched : configLocator lib junk ((LocatorCommand.assign addr p value).words[·]?) st
      = cmdSetLocatorParamater lib junk ((LocatorCommand.assign addr p value).words[·]?) st := by
    cases p <;> rfl
  rw [dispatched, cmdSetLocatorParamater, if_neg (by simp [LocatorCommand.words])]
  change (match lib.getaddrinfo (some addr) lispControlPort with | none => _ | some res => _) = _
  cases lib.getaddrinfo (some addr) lispControlPort with
  | none => rfl
  | some res =>
      dsimp only
      cases searchLocator ((junk.freed res).copyTo junk.sockaddr) st with
      | none => rfl
      | some hit =>
          change (locatorParam (some (ascii p.name)) >>= _) = _
          rw [locatorParam_name]
          rfl

theorem param_setParam (loc : Locator) (p q : LocatorParam) (value : BitVec 32)
    : param (setParam loc p value) q = if q = p then value.setWidth 8 else param loc q := by
  cases p <;> cases q <;> rfl

theorem locAddr_setParam (loc : Locator) (p : LocatorParam) (value : BitVec 32)
    : (setParam loc p value).locAddr = loc.locAddr := by
  cases p <;> rfl

end

-----------------------------------------------------------------------------------------
-- Histories
-----------------------------------------------------------------------------------------

/-- A command with its answer. -/
abbrev Answered := LocatorCommand × ReturnType

/-- A locator command in the control thread, with the history of those before it. -/
def locatorStep (lib : Library) (s : List Answered × Lixyd) (e : Junk × LocatorCommand)
    : Except CommandFault (List Answered × Lixyd) := do
  let (res, st) ← configLocator lib e.1 (e.2.words[·]?) s.2
  return (s.1 ++ [(e.2, res)], st)

/-- What a command does to the locator of an address. -/
def LocatorCommand.entry (address : Address) : LocatorCommand → Entry Address LocatorParam Nat
  | create _ => .create address
  | delete _ => .delete address
  | assign _ param value => .assign address param value.value

/-- What an answered command did: nothing unless it was answered with success. -/
def entryOf (lib : Library) (answered : Answered) : Option (Entry Address LocatorParam Nat) :=
  if answered.2 = .success then
    (lib.getaddrinfo (some answered.1.addr) lispControlPort).map
      fun res => answered.1.entry res.address
  else
    none

/-- The locators to announce after a history: the addresses whose last successful creation no
successful deletion follows, with the values last set since, or 0.
-/
def announced (lib : Library) (history : List Answered) : List (Address × (LocatorParam → Nat)) :=
  standing 0 (history.filterMap (entryOf lib))

/-- A parameter command that finds a locator finds the one that its address resolves to, and
its value fits the parameter.
-/
def Sound (lib : Library) (s : List Answered × Lixyd) (e : Junk × LocatorCommand) : Prop :=
  match e.2 with
  | .assign addr _ value =>
      ∀ res, lib.getaddrinfo (some addr) lispControlPort = some res
        → searchLocator ((e.1.freed res).copyTo e.1.sockaddr) s.2 ≠ none
        → (e.1.freed res).address = res.address ∧ value.value ≤ 255
  | _ => True

/-- A configured locator is the one to announce. -/
structure Configures (loc : Locator) (item : Address × (LocatorParam → Nat)) : Prop where
  address : Denotes loc.locAddr item.1
  params : ∀ p, (param loc p).toNat = item.2 p

/-- The configured locators are those to announce, and are counted. -/
structure Configured (lib : Library) (s : List Answered × Lixyd) : Prop where
  counted : s.2.locTuple.Counted
  locators : List.Forall₂ Configures s.2.locTuple.nodes (announced lib s.1)

section

variable {nodes : List Locator} {items : List (Address × (LocatorParam → Nat))}

/-- Beside a split of the configured locators lies one of those to announce. -/
theorem configures_split {front back : List Locator} {loc : Locator}
    (h : List.Forall₂ Configures (front ++ loc :: back) items)
    : ∃ front' item back', items = front' ++ item :: back' ∧ List.Forall₂ Configures front front'
        ∧ Configures loc item ∧ List.Forall₂ Configures back back' := by
  induction front generalizing items with
  | nil =>
      obtain ⟨item, back', first, rest, rfl⟩ := List.forall₂_cons_left_iff.mp h
      exact ⟨[], item, back', rfl, .nil, first, rest⟩
  | cons other front ih =>
      obtain ⟨item', items', first, rest, rfl⟩ := List.forall₂_cons_left_iff.mp h
      obtain ⟨front', item, back', rfl, before, here, behind⟩ := ih rest
      exact ⟨item' :: front', item, back', rfl, .cons first before, here, behind⟩

theorem configures_append {front back : List Locator}
    {front' back' : List (Address × (LocatorParam → Nat))}
    (h : List.Forall₂ Configures front front')
    (h' : List.Forall₂ Configures back back')
    : List.Forall₂ Configures (front ++ back) (front' ++ back') :=
  List.rel_append h h'

/-- An address that no configured locator has is not announced. -/
theorem address_absent {address : Address} (h : List.Forall₂ Configures nodes items)
    (absent : ∀ loc ∈ nodes, ¬ Denotes loc.locAddr address)
    : ∀ item ∈ items, item.1 ≠ address := by
  induction h with
  | nil => nofun
  | @cons loc item nodes items here _ ih =>
      intro other mem
      rcases List.mem_cons.mp mem with rfl | mem
      · rintro rfl
        exact absent loc (by simp) here.address
      · exact ih (fun loc mem => absent loc (List.mem_cons_of_mem _ mem)) other mem

end

section

variable {lib : Library} {history : List Answered} {cmd : LocatorCommand}

theorem announced_failed {res : ReturnType} (failed : res ≠ .success)
    : announced lib (history ++ [(cmd, res)]) = announced lib history := by
  rw [announced, List.filterMap_append, List.filterMap_cons_none (by simp [entryOf, failed]),
    List.filterMap_nil, List.append_nil, announced]

theorem announced_success {res : AiAddr}
    (resolved : lib.getaddrinfo (some cmd.addr) lispControlPort = some res)
    : announced lib (history ++ [(cmd, .success)])
      = standing 0 (history.filterMap (entryOf lib) ++ [cmd.entry res.address]) := by
  have entry : entryOf lib (cmd, .success) = some (cmd.entry res.address) := by
    simp [entryOf, resolved]
  rw [announced, List.filterMap_append, List.filterMap_cons_some entry, List.filterMap_nil]

variable {addr : List Byte} {res : AiAddr}
  (resolved : lib.getaddrinfo (some addr) lispControlPort = some res)

include resolved

theorem announced_create
    : announced lib (history ++ [(.create addr, .success)])
      = Journals.without res.address (announced lib history) ++ [(res.address, fun _ => 0)] := by
  rw [announced_success resolved]
  exact Journals.standing_create

theorem announced_delete
    : announced lib (history ++ [(.delete addr, .success)])
      = Journals.without res.address (announced lib history) := by
  rw [announced_success resolved]
  exact Journals.standing_delete

theorem announced_assign (p : LocatorParam) (value : Numeral)
    : announced lib (history ++ [(.assign addr p value, .success)])
      = (announced lib history).map fun item =>
          if item.1 = res.address then
            (item.1, Function.update item.2 p value.value)
          else
            item := by
  rw [announced_success resolved]
  exact Journals.standing_assign p value.value

end

section

variable {lib : Library} {history : List Answered} {st st' : Lixyd} {junk : Junk}

/-- A command that failed leaves what was configured to be announced. -/
theorem Configured.failed (inv : Configured lib (history, st)) {cmd : LocatorCommand}
    {res : ReturnType} (failed : res ≠ .success)
    : Configured lib (history ++ [(cmd, res)], st) :=
  ⟨inv.counted, by rw [announced_failed failed]; exact inv.locators⟩

/-- A search finds the locator to announce for the address, or there is none. -/
theorem Configured.search (inv : Configured lib (history, st)) {cmp : Locator → Bool}
    {address : Address}
    (compares : ∀ loc a, Denotes loc.locAddr a → (cmp loc = true ↔ a = address))
    : (searchListnode st.locTuple cmp = none ∧ ∀ item ∈ announced lib history, item.1 ≠ address)
      ∨ ∃ front loc back front' item back',
          searchListnode st.locTuple cmp = some (front.length, loc)
          ∧ st.locTuple.nodes = front ++ loc :: back
          ∧ announced lib history = front' ++ item :: back' ∧ item.1 = address
          ∧ List.Forall₂ Configures front front' ∧ Configures loc item
          ∧ List.Forall₂ Configures back back' := by
  cases found : searchListnode st.locTuple cmp with
  | none =>
      refine .inl ⟨rfl, address_absent inv.locators fun loc mem denotes => ?_⟩
      have equal := (compares loc address denotes).mpr rfl
      rw [searchListnode_eq_none.mp found loc mem] at equal
      cases equal
  | some hit =>
      obtain ⟨place, loc⟩ := hit
      obtain ⟨front, back, split, rfl, equal, _⟩ := searchListnode_split found
      have locators := inv.locators
      rw [split] at locators
      obtain ⟨front', item, back', items, before, here, behind⟩ := configures_split locators
      exact .inr ⟨front, loc, back, front', item, back', rfl, split, items,
        (compares loc item.1 here.address).mp equal, before, here, behind⟩

/-- The items to announce have distinct addresses. -/
theorem announced_nodup : ((announced lib history).map Prod.fst).Nodup := Journals.standing_nodup

theorem Configured.create (inv : Configured lib (history, st)) {addr : List Byte}
    {res : ReturnType}
    (done : configLocator lib junk ((LocatorCommand.create addr).words[·]?) st = .ok (res, st'))
    : Configured lib (history ++ [(.create addr, res)], st') := by
  rw [configLocator_create] at done
  change (match lib.getaddrinfo (some addr) lispControlPort with | none => _ | some res => _) = _
    at done
  cases resolved : lib.getaddrinfo (some addr) lispControlPort with
  | none =>
      rw [resolved] at done
      cases done
      exact inv.failed nofun
  | some ai =>
      rw [resolved] at done
      dsimp only at done
      rcases inv.search (fun loc a denotes => by
          rw [compareSockaddr_iff (denotes_copyTo ai .zero) denotes, eq_comm])
        with ⟨missed, absent⟩ | ⟨front, loc, back, _, _, _, hit, _⟩
      · rw [searchLocator, missed] at done
        cases done
        refine ⟨inv.counted.append _, ?_⟩
        rw [announced_create resolved, Journals.without_of_absent absent]
        refine configures_append inv.locators (.cons ⟨denotes_copyTo _ _, fun p => ?_⟩ .nil)
        cases p <;> rfl
      · rw [searchLocator, hit] at done
        cases done
        exact inv.failed nofun

theorem Configured.delete (inv : Configured lib (history, st)) {addr : List Byte}
    {res : ReturnType}
    (done : configLocator lib junk ((LocatorCommand.delete addr).words[·]?) st = .ok (res, st'))
    : Configured lib (history ++ [(.delete addr, res)], st') := by
  rw [configLocator_delete] at done
  change (match lib.getaddrinfo (some addr) lispControlPort with | none => _ | some res => _) = _
    at done
  cases resolved : lib.getaddrinfo (some addr) lispControlPort with
  | none =>
      rw [resolved] at done
      cases done
      exact inv.failed nofun
  | some ai =>
      rw [resolved] at done
      dsimp only at done
      rcases inv.search (fun loc a denotes =>
          compareSockaddr_iff denotes (denotes_copyTo ai junk.sockaddr))
        with ⟨missed, _⟩ | ⟨front, loc, back, front', item, back', hit, split, items, same, before,
          _, behind⟩
      · rw [unsetLispLocator, missed] at done
        cases done
        exact inv.failed nofun
      · rw [unsetLispLocator, hit] at done
        cases done
        refine ⟨inv.counted.delete _, ?_⟩
        have nodup := @announced_nodup lib history
        rw [announced_delete resolved, ← same]
        rw [items] at nodup ⊢
        rw [Journals.without_split nodup]
        change List.Forall₂ Configures (deleteListnode st.locTuple front.length).nodes _
        rw [(deleteListnode_split split rfl).1]
        exact configures_append before behind

theorem Configured.assign (inv : Configured lib (history, st)) {addr : List Byte}
    {p : LocatorParam} {value : Numeral} {res : ReturnType}
    (sound : Sound lib (history, st) (junk, .assign addr p value))
    (done : configLocator lib junk ((LocatorCommand.assign addr p value).words[·]?) st
      = .ok (res, st'))
    : Configured lib (history ++ [(.assign addr p value, res)], st') := by
  rw [configLocator_assign] at done
  cases resolved : lib.getaddrinfo (some addr) lispControlPort with
  | none =>
      rw [resolved] at done
      cases done
      exact inv.failed nofun
  | some ai =>
      rw [resolved] at done
      dsimp only at done
      rcases inv.search (fun loc a denotes => by
          rw [compareSockaddr_iff (denotes_copyTo (junk.freed ai) junk.sockaddr) denotes, eq_comm])
        with ⟨missed, _⟩ | ⟨front, loc, back, front', item, back', hit, split, items, same, before,
          here, behind⟩
      · rw [searchLocator, missed] at done
        cases done
        exact inv.failed nofun
      · obtain ⟨address, small⟩ := sound ai resolved (by rw [searchLocator, hit]; nofun)
        rw [searchLocator, hit] at done
        cases done
        refine ⟨inv.counted.write _ _, ?_⟩
        have nodup := @announced_nodup lib history
        have same' : item.1 = ai.address := same.trans address
        rw [announced_assign resolved, ← same']
        rw [items] at nodup ⊢
        rw [Journals.assign_split nodup]
        change List.Forall₂ Configures (st.locTuple.write _ _).nodes _
        rw [ListT.write_split split rfl]
        refine configures_append before (.cons ⟨?_, fun q => ?_⟩ behind)
        · rw [locAddr_setParam]
          exact here.address
        · change _ = Function.update item.2 p value.value q
          rw [param_setParam, Function.update_apply]
          split
          · rw [atoi_numeral small, BitVec.toNat_setWidth, BitVec.toNat_ofNat]
            omega
          · exact here.params q

end

/-- What one locator command keeps. -/
theorem configured_step {lib : Library} {s s' : List Answered × Lixyd} {e : Junk × LocatorCommand}
    (inv : Configured lib s) (sound : Sound lib s e) (done : locatorStep lib s e = .ok s')
    : Configured lib s' := by
  obtain ⟨history, st⟩ := s
  obtain ⟨junk, cmd⟩ := e
  obtain ⟨⟨res, st'⟩, answered, done⟩ := bind_eq_ok.mp done
  cases done
  cases cmd with
  | create addr => exact inv.create answered
  | delete addr => exact inv.delete answered
  | assign addr p value => exact inv.assign sound answered

theorem configured_start (lib : Library) : Configured lib ([], .start) :=
  ⟨counted_createList, .nil⟩

-----------------------------------------------------------------------------------------
-- The Map-Register
-----------------------------------------------------------------------------------------

/-- A locator of a message announces an item. -/
structure Announces (bytes : List Byte) (item : Address × (LocatorParam → Nat)) : Prop where
  afi : field16 bytes 6 = afToLispafi item.1.1
  addr : bytes.drop 8 = item.1.2
  priority : (byteAt bytes 0).toNat = item.2 .priority
  weight : (byteAt bytes 1).toNat = item.2 .weight
  mPriority : (byteAt bytes 2).toNat = item.2 .mPriority
  mWeight : (byteAt bytes 3).toNat = item.2 .mWeight

/-- `set_lisp_map_register` builds a message that announces just these items, in their order
and with their number in the record.
-/
def Registers (hmacSha1 : List Byte → List Byte → Bytes shaDigestLength) (buf : List Byte)
    (pfx : Prefix) (key : List Byte) (nonce : Bytes 8) (st : Lixyd)
    (items : List (Address × (LocatorParam → Nat)))
    : Prop :=
  ∃ out size auth header record locators,
    setLispMapRegister hmacSha1 buf st.locTuple pfx key nonce = .ok (some (out, size))
      ∧ out.take size = header ++ record ++ locators.flatten
      ∧ RegisterHeader header nonce auth
      ∧ RecordOf record items.length pfx
      ∧ List.Forall₂ Announces locators items

theorem announces_of_locatorOf {bytes : List Byte} {loc : Locator}
    {item : Address × (LocatorParam → Nat)} (encodes : LocatorOf bytes loc)
    (configures : Configures loc item)
    : Announces bytes item where
  afi := by rw [encodes.afi, configures.address.1]
  addr := Option.some.inj (encodes.addr.trans configures.address.2)
  priority := by rw [encodes.priority]; exact configures.params .priority
  weight := by rw [encodes.weight]; exact configures.params .weight
  mPriority := by rw [encodes.mPriority]; exact configures.params .mPriority
  mWeight := by rw [encodes.mWeight]; exact configures.params .mWeight

/-- Encoded one by one, the configured locators announce the items, by induction on them. -/
theorem announces_of_forall₂ {locators : List (List Byte)} {nodes : List Locator}
    {items : List (Address × (LocatorParam → Nat))}
    (encoded : List.Forall₂ LocatorOf locators nodes)
    (configured : List.Forall₂ Configures nodes items)
    : List.Forall₂ Announces locators items := by
  induction encoded generalizing items with
  | nil =>
      cases configured
      exact .nil
  | cons encodes _ ih =>
      obtain ⟨item, rest, configures, behind, rfl⟩ := List.forall₂_cons_left_iff.mp configured
      exact .cons (announces_of_locatorOf encodes configures) (ih behind)

section

variable {lib : Library} {history : List Answered} {st : Lixyd}

theorem Configured.known (inv : Configured lib (history, st))
    : ∀ loc ∈ st.locTuple.nodes, loc.Known := by
  intro loc mem
  obtain ⟨front, back, split⟩ := List.append_of_mem mem
  have locators := inv.locators
  rw [split] at locators
  obtain ⟨_, item, _, _, _, here, _⟩ := configures_split locators
  rw [Locator.Known, here.address.2]
  rfl

/-- What is configured is registered, where it fits one message. -/
theorem Configured.registers (inv : Configured lib (history, st))
    (hmacSha1 : List Byte → List Byte → Bytes shaDigestLength) {buf key : List Byte} {pfx : Prefix}
    (nonce : Bytes 8) (valid : pfx.Valid) (ends : 0 ∈ key)
    (few : st.locTuple.nodes.length ≤ 255)
    (fits : registerSize st.locTuple.nodes pfx ≤ buf.length)
    : Registers hmacSha1 buf pfx key nonce st (announced lib history) := by
  obtain ⟨out, auth, encoded, _, ⟨header, record, locators, parts, head, body, items⟩, _⟩ :=
    setLispMapRegister_format hmacSha1 nonce valid inv.known few ends fits
  rw [← inv.counted.eq_listOf] at encoded
  rw [inv.locators.length_eq] at body
  exact ⟨out, _, auth, header, record, locators, encoded, parts, head, body,
    announces_of_forall₂ items inv.locators⟩

end

/-- After every run of locator commands whose steps are sound, the Map-Register that is built
announces the locators that stand.
-/
theorem locatorHistory_registered {lib : Library} {events : List (Junk × LocatorCommand)}
    {history : List Answered} {st : Lixyd}
    (hmacSha1 : List Byte → List Byte → Bytes shaDigestLength) {buf key : List Byte} {pfx : Prefix}
    (nonce : Bytes 8) (done : run (locatorStep lib) ([], .start) events = .ok (history, st))
    (sound : Guarded (locatorStep lib) (Sound lib) ([], .start) events)
    (valid : pfx.Valid) (ends : 0 ∈ key) (few : st.locTuple.nodes.length ≤ 255)
    (fits : registerSize st.locTuple.nodes pfx ≤ buf.length)
    : Registers hmacSha1 buf pfx key nonce st (announced lib history)
      ∧ ((announced lib history).map Prod.fst).Nodup := by
  have inv : Configured lib (history, st) :=
    sound.invariant (fun _ _ _ inv sound done => configured_step inv sound done)
      (configured_start lib) done
  exact ⟨inv.registers hmacSha1 nonce valid ends few fits, announced_nodup⟩

/-- A numeral for testing: the digits of a literal. -/
def numeral (literal : String) (nonempty : ascii literal ≠ [] := by decide)
    (isDigit : ∀ c ∈ ascii literal, isDigit c = true := by decide)
    : Numeral :=
  ⟨ascii literal, nonempty, isDigit⟩

/-- Create the locator 192.0.2.1, and set its priority. -/
def testEvents (priority : Numeral) : List (Junk × LocatorCommand) :=
  [(testJunk, .create (ascii "192.0.2.1")),
    (testJunk, .assign (ascii "192.0.2.1") .priority priority)]

/-- The same with their answers. -/
def testHistory (priority : Numeral) : List Answered :=
  [(.create (ascii "192.0.2.1"), .success),
    (.assign (ascii "192.0.2.1") .priority priority, .success)]

/-- The address 192.0.2.1 with a port. -/
def testAddress (port : Nat) : AiAddr := .inet port (inAddr 192 0 2 1) (zeros 8)

theorem testAddress_resolved (port : Nat)
    : testLibrary.getaddrinfo (some (ascii "192.0.2.1")) port = some (testAddress port) := rfl

/-- The daemon after the two commands. -/
def testConfigured (priority : Numeral) : Lixyd :=
  { Lixyd.start with
    locTuple := listOf [setParam
      { Locator.zero with locAddr := (testAddress lispControlPort).copyTo .zero } .priority
      (atoi priority.text)] }

theorem testEvents_run (priority : Numeral)
    : run (locatorStep testLibrary) ([], .start) (testEvents priority)
      = .ok (testHistory priority, testConfigured priority) := rfl

theorem testHistory_announced (priority : Numeral)
    : announced testLibrary (testHistory priority)
      = [((testAddress lispControlPort).address,
          Function.update (fun _ => 0) LocatorParam.priority priority.value)] :=
  @announced_assign testLibrary [(.create (ascii "192.0.2.1"), .success)] _ _
    (testAddress_resolved lispControlPort) .priority priority

/-- Witness: a locator with a priority of 100. -/
theorem testLocator_registered
    : run (locatorStep testLibrary) ([], .start) (testEvents (numeral "100"))
        = .ok (testHistory (numeral "100"), testConfigured (numeral "100"))
      ∧ Registers firstBytes (List.replicate 100 0) testPrefix [0] (zeros 8)
          (testConfigured (numeral "100")) (announced testLibrary (testHistory (numeral "100"))) := by
  have sound : Guarded (locatorStep testLibrary) (Sound testLibrary) ([], .start)
      (testEvents (numeral "100")) := by
    refine ⟨trivial, fun next _ => ⟨fun res _ _ => ⟨rfl, ?_⟩, fun _ _ => trivial⟩⟩
    decide
  refine ⟨testEvents_run _, ?_⟩
  exact (locatorHistory_registered firstBytes (zeros 8) (testEvents_run _) sound (by decide)
    (by decide) (by decide) (by decide)).1

/-- A priority of 300 is answered with success, and not registered. -/
theorem largePriority_cut
    : run (locatorStep testLibrary) ([], .start) (testEvents (numeral "300"))
        = .ok (testHistory (numeral "300"), testConfigured (numeral "300"))
      ∧ ¬ Registers firstBytes (List.replicate 100 0) testPrefix [0] (zeros 8)
          (testConfigured (numeral "300")) (announced testLibrary (testHistory (numeral "300"))) := by
  refine ⟨testEvents_run _, ?_⟩
  rw [testHistory_announced]
  rintro ⟨_, _, _, _, _, _, _, _, _, _, announces⟩
  obtain ⟨bytes, _, here, _, rfl⟩ := List.forall₂_cons_right_iff.mp announces
  have priority : (byteAt bytes 0).toNat = (numeral "300").value := here.priority
  have value : (numeral "300").value = 300 := by decide
  have := (byteAt bytes 0).isLt
  omega

end Lixy.Control
