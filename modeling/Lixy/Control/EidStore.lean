import Lixy.Foundation.EventRuns
import Lixy.Control.CommandEffects

/-! The EIDs that commands create, change and delete beside a finite map of whole names: what
they have in common as long as the 16 bytes of a name field tell the names apart.
-/

namespace Lixy.Control

open ByteStrings
open EventRuns (run Guarded)

-----------------------------------------------------------------------------------------
-- The finite map
-----------------------------------------------------------------------------------------

/-- A word of a command line. -/
structure Word where
  text : List Byte
  noNul : 0 ∉ text

/-- An authentication key that is shorter than its field. -/
structure Key extends Word where
  short : text.length < lispMaxKeylen

/-- What is known of an EID's site. -/
structure Site where
  key : List Byte
  prefixes : List Prefix

/-- The sites by the whole names of their EIDs. -/
abbrev Sites := List Byte → Option Site

/-- A command on an EID. -/
inductive EidCommand
  | create (name : Word)
  | delete (name : Word)
  | authkey (name : Word) (key : Key)
  | setPrefix (name cPrefix : Word)
  | unsetPrefix (name cPrefix : Word)

/-- The name in a command. -/
def EidCommand.name : EidCommand → List Byte
  | create name => name.text
  | delete name => name.text
  | authkey name _ => name.text
  | setPrefix name _ => name.text
  | unsetPrefix name _ => name.text

/-- The prefix in a command. -/
def EidCommand.cPrefix : EidCommand → Option (List Byte)
  | setPrefix _ cPrefix => some cPrefix.text
  | unsetPrefix _ cPrefix => some cPrefix.text
  | _ => none

/-- The words of a command. -/
def EidCommand.words : EidCommand → List (List Byte)
  | create name => [ascii "eid", name.text, ascii "create"]
  | delete name => [ascii "eid", name.text, ascii "delete"]
  | authkey name key => [ascii "eid", name.text, ascii "authkey", key.text]
  | setPrefix name cPrefix => [ascii "eid", name.text, ascii "prefix", cPrefix.text]
  | unsetPrefix name cPrefix =>
      [ascii "eid", name.text, ascii "prefix", cPrefix.text, ascii "delete"]

/-- The prefix that a word stands for, in the family its address resolves to. -/
def parsedPrefix (lib : Library) (cPrefix : List Byte) : Option Prefix :=
  if 0x2f ∉ cPrefix then
    none
  else do
    let res ← lib.getaddrinfo (some (cPrefix.takeWhile (· ≠ 0x2f))) lispControlPort
    (← ( ascii2prefix lib.inetPton6 res.family cPrefix).toOption)

/-- What a command on an existing EID's prefixes does, by whether the prefix is among them. -/
def changePrefixes (lib : Library) (sites : Sites) (name cPrefix : List Byte)
    (change : Site → Prefix → ReturnType × Sites)
    : ReturnType × Sites :=
  match sites name with
  | none => (.errEidDoesNotExists, sites)
  | some site =>
      match parsedPrefix lib cPrefix with
      | none => (.errInvalidAddress, sites)
      | some pfx => change site pfx

/-- A command on the finite map: its answer, and the map after it. -/
def sitesStep (lib : Library) (sites : Sites) : EidCommand → ReturnType × Sites
  | .create name =>
      match sites name.text with
      | some _ => (.errEidExists, sites)
      | none => (.success, Function.update sites name.text (some { key := [], prefixes := [] }))
  | .delete name =>
      match sites name.text with
      | none => (.errEidDoesNotExists, sites)
      | some _ => (.success, Function.update sites name.text none)
  | .authkey name key =>
      match sites name.text with
      | none => (.errEidDoesNotExists, sites)
      | some site =>
          (.success, Function.update sites name.text (some { site with key := key.text }))
  | .setPrefix name cPrefix =>
      changePrefixes lib sites name.text cPrefix.text fun site pfx =>
        if site.prefixes.any (comparePrefix pfx) then
          (.errAddressExists, sites)
        else
          (.success, Function.update sites name.text
            (some { site with prefixes := site.prefixes ++ [pfx] }))
  | .unsetPrefix name cPrefix =>
      changePrefixes lib sites name.text cPrefix.text fun site pfx =>
        if site.prefixes.any (comparePrefix pfx) then
          (.success, Function.update sites name.text
            (some { site with prefixes := site.prefixes.eraseP (comparePrefix pfx) }))
        else
          (.errAddressDoesNotExists, sites)

-----------------------------------------------------------------------------------------
-- The daemon beside the map
-----------------------------------------------------------------------------------------

/-- The daemon and the map after the same commands, with the answers of each. -/
structure Beside where
  lixyd : Lixyd
  answers : List ReturnType
  sites : Sites
  expected : List ReturnType

/-- The daemon at start beside the empty map. -/
def Beside.start : Beside := { lixyd := .start, answers := [], sites := fun _ => none, expected := [] }

/-- A command in both. -/
def besideStep (lib : Library) (s : Beside) (e : Junk × EidCommand)
    : Except CommandFault Beside := do
  let (res, lixyd) ← configEid lib e.1 (e.2.words[·]?) s.lixyd
  let (res', sites) := sitesStep lib s.sites e.2
  return { lixyd, answers := s.answers ++ [res], sites, expected := s.expected ++ [res'] }

/-- The name field tells the command's name from those of the EIDs that there are, and the word
of a prefix command for an EID that there is fits the address buffer.
-/
def Fits (s : Beside) (e : Junk × EidCommand) : Prop :=
  (∀ other, s.sites other ≠ none → other.take lispEidNameLen = e.2.name.take lispEidNameLen
      → other = e.2.name)
    ∧ ∀ cPrefix, e.2.cPrefix = some cPrefix → s.sites e.2.name ≠ none
        → cPrefix.length < addrbuflen

/-- An EID of the daemon that is a site of the map. -/
structure Stores (eid : Eid) (name : List Byte) (site : Site) : Prop where
  noNul : 0 ∉ name
  name : eid.name = strncpy lispEidNameLen name
  authkey : eid.authkey.toList.takeWhile (· ≠ 0) = site.key
  prefixes : eid.prefixTuple.nodes = site.prefixes

/-- The daemon's EIDs are the sites of the map, told apart by what a name field holds. -/
structure Refines (st : Lixyd) (sites : Sites) : Prop where
  stored : ∀ eid ∈ st.eidTuple.nodes, ∃ name site, sites name = some site ∧ Stores eid name site
  present : ∀ name site, sites name = some site → ∃ eid ∈ st.eidTuple.nodes, Stores eid name site
  distinct : (st.eidTuple.nodes.map Eid.name).Nodup
  apart : ∀ name other, sites name ≠ none → sites other ≠ none
    → name.take lispEidNameLen = other.take lispEidNameLen → name = other

-----------------------------------------------------------------------------------------
-- Names
-----------------------------------------------------------------------------------------

section

variable {n : Nat} {s1 s2 : List Byte}

/-- A field compares equal with a string that begins as the string in it does, by induction on
the length of the field.
-/
theorem strncmp_strncpy (h1 : 0 ∉ s1) (h2 : 0 ∉ s2)
    : strncmp n s1 (strncpy n s2).toList = true ↔ s1.take n = s2.take n := by
  change strncmp n s1 (s2.take n ++ List.replicate (n - s2.length) 0) = true ↔ _
  induction n generalizing s1 s2 with
  | zero => simp [strncmp]
  | succ n ih =>
      cases s2 with
      | nil =>
          cases s1 with
          | nil => simp [strncmp, List.replicate_succ]
          | cons c rest =>
              have ne : c ≠ 0#8 := fun same => h1 (by simp [same])
              simp [strncmp, List.replicate_succ, ne]
      | cons d rest2 =>
          have dne : d ≠ 0#8 := fun same => h2 (by simp [same])
          cases s1 with
          | nil => simp [strncmp, Ne.symm dne]
          | cons c rest1 =>
              have next := @ih rest1 rest2 (fun mem => h1 (List.mem_cons_of_mem _ mem))
                (fun mem => h2 (List.mem_cons_of_mem _ mem))
              by_cases same : c = d
              · simpa [strncmp, same, dne] using next
              · simp [strncmp, same]

/-- A field holds what the string in it begins with. -/
theorem strncpy_eq_iff (h1 : 0 ∉ s1) (h2 : 0 ∉ s2)
    : strncpy n s1 = strncpy n s2 ↔ s1.take n = s2.take n := by
  have self := (strncmp_strncpy (n := n) h1 h1).mpr rfl
  constructor
  · intro same
    rw [same] at self
    exact (strncmp_strncpy h1 h2).mp self
  · intro same
    have lengths := congrArg List.length same
    rw [List.length_take, List.length_take] at lengths
    apply List.Vector.eq
    change s1.take n ++ List.replicate (n - s1.length) 0
      = s2.take n ++ List.replicate (n - s2.length) 0
    rw [same, show n - s1.length = n - s2.length by omega]

end

-----------------------------------------------------------------------------------------
-- Searching
-----------------------------------------------------------------------------------------

section

variable {st : Lixyd} {sites : Sites} {name : List Byte} {site : Site} {eid : Eid}

/-- An EID stores a site under one name only, as far as a field tells. -/
theorem Stores.take_eq {other : List Byte} {site' : Site} (h : Stores eid name site)
    (h' : Stores eid other site')
    : name.take lispEidNameLen = other.take lispEidNameLen :=
  (strncpy_eq_iff h.noNul h'.noNul).mp (h.name.symm.trans h'.name)

/-- A search by a name that a field tells apart finds its EID, or there is none. -/
theorem Refines.search (inv : Refines st sites) (noNul : 0 ∉ name)
    (told : ∀ other, sites other ≠ none → other.take lispEidNameLen = name.take lispEidNameLen
      → other = name)
    : (searchEid name st = none ∧ sites name = none
        ∧ ∀ eid ∈ st.eidTuple.nodes, eid.name ≠ strncpy lispEidNameLen name)
      ∨ ∃ site front eid back, searchEid name st = some (front.length, eid)
          ∧ st.eidTuple.nodes = front ++ eid :: back ∧ sites name = some site
          ∧ Stores eid name site := by
  have own : strncmp lispEidNameLen name (strncpy lispEidNameLen name).toList = true :=
    (strncmp_strncpy noNul noNul).mpr rfl
  cases found : searchEid name st with
  | none =>
      have differs : ∀ eid ∈ st.eidTuple.nodes, eid.name ≠ strncpy lispEidNameLen name := by
        intro eid mem same
        have missed := searchListnode_eq_none.mp found eid mem
        rw [same, own] at missed
        cases missed
      refine .inl ⟨rfl, ?_, differs⟩
      cases there : sites name with
      | none => rfl
      | some site =>
          obtain ⟨eid, mem, stores⟩ := inv.present name site there
          exact absurd stores.name (differs eid mem)
  | some hit =>
      obtain ⟨place, eid⟩ := hit
      obtain ⟨front, back, split, rfl, equal, _⟩ := searchListnode_split found
      obtain ⟨other, site, there, stores⟩ := inv.stored eid (by simp [split])
      rw [stores.name, strncmp_strncpy noNul stores.noNul] at equal
      obtain rfl := told other (by rw [there]; nofun) equal.symm
      exact .inr ⟨site, front, eid, back, rfl, split, there, stores⟩

/-- Beside the EID of a name lie those of the other names. -/
theorem Refines.others (inv : Refines st sites) {front back : List Eid}
    (split : st.eidTuple.nodes = front ++ eid :: back) (there : sites name = some site)
    (stores : Stores eid name site)
    : (∀ other ∈ front ++ back, other.name ≠ eid.name
        ∧ ∃ name' site', name' ≠ name ∧ sites name' = some site' ∧ Stores other name' site')
      ∧ ∀ name' site', name' ≠ name → sites name' = some site'
        → ∃ other ∈ front ++ back, Stores other name' site' := by
  have distinct := inv.distinct
  rw [split, List.map_append, List.map_cons, List.nodup_middle, ← List.map_append,
    List.nodup_cons] at distinct
  constructor
  · intro other mem
    have ne : other.name ≠ eid.name := fun same =>
      distinct.1 (same ▸ List.mem_map_of_mem mem)
    obtain ⟨name', site', there', stores'⟩ := inv.stored other (by
      rw [split]
      rcases List.mem_append.mp mem with mem | mem <;> simp [mem])
    refine ⟨ne, name', site', ?_, there', stores'⟩
    rintro rfl
    exact ne (stores'.name.trans stores.name.symm)
  · intro name' site' ne there'
    obtain ⟨other, mem, stores'⟩ := inv.present name' site' there'
    rw [split, List.mem_append, List.mem_cons] at mem
    rcases mem with mem | rfl | mem
    · exact ⟨other, List.mem_append_left _ mem, stores'⟩
    · exact absurd (inv.apart name' name (by rw [there']; nofun) (by rw [there]; nofun)
        (stores'.take_eq stores)) ne
    · exact ⟨other, List.mem_append_right _ mem, stores'⟩

/-- Creating an EID under a name that a field tells apart. -/
theorem Refines.create (inv : Refines st sites) (noNul : 0 ∉ name)
    (told : ∀ other, sites other ≠ none → other.take lispEidNameLen = name.take lispEidNameLen
      → other = name)
    (absent : sites name = none)
    (differs : ∀ eid ∈ st.eidTuple.nodes, eid.name ≠ strncpy lispEidNameLen name)
    : Refines { st with eidTuple := appendListnode st.eidTuple (createEidInstance name) }
        (Function.update sites name (some { key := [], prefixes := [] })) := by
  have ne_of_there {other : List Byte} (there : sites other ≠ none) : other ≠ name := by
    rintro rfl
    exact there absent
  have fresh : Stores (createEidInstance name) name { key := [], prefixes := [] } :=
    { noNul, name := rfl, authkey := rfl, prefixes := rfl }
  constructor
  · intro eid mem
    rcases List.mem_append.mp mem with mem | mem
    · obtain ⟨other, site, there, stores⟩ := inv.stored eid mem
      have ne := ne_of_there (by rw [there]; nofun)
      exact ⟨other, site, by rw [Function.update_of_ne ne, there], stores⟩
    · obtain rfl := List.mem_singleton.mp mem
      exact ⟨name, _, Function.update_self .., fresh⟩
  · intro other site there
    by_cases same : other = name
    · subst same
      rw [Function.update_self, Option.some.injEq] at there
      subst there
      exact ⟨_, List.mem_append_right _ (List.mem_singleton.mpr rfl), fresh⟩
    · rw [Function.update_of_ne same] at there
      obtain ⟨eid, mem, stores⟩ := inv.present other site there
      exact ⟨eid, List.mem_append_left _ mem, stores⟩
  · rw [appendListnode_nodes, List.map_append, List.map_singleton, List.nodup_append]
    refine ⟨inv.distinct, List.nodup_singleton _, ?_⟩
    intro field mem field' mem' same
    obtain ⟨eid, inside, rfl⟩ := List.mem_map.mp mem
    obtain rfl := List.mem_singleton.mp mem'
    exact differs eid inside same
  · intro a b ha hb same
    by_cases isA : a = name
    · by_cases isB : b = name
      · rw [isA, isB]
      · rw [Function.update_of_ne isB] at hb
        rw [isA] at same ⊢
        exact (told b hb same.symm).symm
    · rw [Function.update_of_ne isA] at ha
      by_cases isB : b = name
      · rw [isB] at same ⊢
        exact told a ha same
      · rw [Function.update_of_ne isB] at hb
        exact inv.apart a b ha hb same

/-- Deleting the EID of a name. -/
theorem Refines.delete (inv : Refines st sites) {front back : List Eid}
    (split : st.eidTuple.nodes = front ++ eid :: back) (there : sites name = some site)
    (stores : Stores eid name site)
    : Refines { st with eidTuple := deleteListnode st.eidTuple front.length }
        (Function.update sites name none) := by
  obtain ⟨stored, present⟩ := inv.others split there stores
  obtain ⟨nodes, _⟩ := deleteListnode_split split rfl
  have kept {other : List Byte} (h : Function.update sites name none other ≠ none)
      : other ≠ name ∧ sites other ≠ none := by
    by_cases same : other = name
    · rw [same, Function.update_self] at h
      exact absurd rfl h
    · rw [Function.update_of_ne same] at h
      exact ⟨same, h⟩
  constructor
  · intro other mem
    rw [nodes] at mem
    obtain ⟨_, name', site', ne, there', stores'⟩ := stored other mem
    exact ⟨name', site', by rw [Function.update_of_ne ne, there'], stores'⟩
  · intro name' site' there'
    obtain ⟨ne, _⟩ := kept (by rw [there']; nofun)
    rw [Function.update_of_ne ne] at there'
    rw [nodes]
    exact present name' site' ne there'
  · have distinct := inv.distinct
    rw [split, List.map_append, List.map_cons, List.nodup_middle, List.nodup_cons] at distinct
    rw [nodes, List.map_append]
    exact distinct.2
  · exact fun a b ha hb same => inv.apart a b (kept ha).2 (kept hb).2 same

/-- Assigning to the EID of a name. -/
theorem Refines.write (inv : Refines st sites) {front back : List Eid} {eid' : Eid} {site' : Site}
    (split : st.eidTuple.nodes = front ++ eid :: back) (there : sites name = some site)
    (stores : Stores eid name site) (stores' : Stores eid' name site')
    : Refines (st.writeEid front.length eid') (Function.update sites name (some site')) := by
  obtain ⟨stored, present⟩ := inv.others split there stores
  have nodes : (st.writeEid front.length eid').eidTuple.nodes = front ++ eid' :: back :=
    ListT.write_split split rfl eid'
  have kept {other : List Byte} (h : Function.update sites name (some site') other ≠ none)
      : sites other ≠ none := by
    by_cases same : other = name
    · rw [same, there]
      nofun
    · rwa [Function.update_of_ne same] at h
  constructor
  · intro other mem
    rw [nodes, List.mem_append, List.mem_cons] at mem
    have elsewhere (mem : other ∈ front ++ back)
        : ∃ name'' site'', Function.update sites name (some site') name'' = some site''
          ∧ Stores other name'' site'' := by
      obtain ⟨_, name'', site'', ne, there'', stores''⟩ := stored other mem
      exact ⟨name'', site'', by rw [Function.update_of_ne ne, there''], stores''⟩
    rcases mem with mem | rfl | mem
    · exact elsewhere (List.mem_append_left _ mem)
    · exact ⟨name, site', Function.update_self .., stores'⟩
    · exact elsewhere (List.mem_append_right _ mem)
  · intro name'' site'' there''
    rw [nodes]
    by_cases same : name'' = name
    · subst same
      rw [Function.update_self, Option.some.injEq] at there''
      subst there''
      exact ⟨eid', by simp, stores'⟩
    · rw [Function.update_of_ne same] at there''
      obtain ⟨other, mem, stores''⟩ := present name'' site'' same there''
      refine ⟨other, ?_, stores''⟩
      rcases List.mem_append.mp mem with mem | mem <;> simp [mem]
  · have fields : (front ++ eid' :: back).map Eid.name = (front ++ eid :: back).map Eid.name := by
      rw [List.map_append, List.map_append, List.map_cons, List.map_cons, stores.name, stores'.name]
    rw [nodes, fields, ← split]
    exact inv.distinct
  · exact fun a b ha hb same => inv.apart a b (kept ha) (kept hb) same

end

-----------------------------------------------------------------------------------------
-- The commands
-----------------------------------------------------------------------------------------

/-- A word that fits goes through the address buffer whole. -/
theorem eidPrefix_eq {lib : Library} {junk : Junk} {cPrefix : List Byte} (noNul : 0 ∉ cPrefix)
    (short : cPrefix.length < addrbuflen)
    : eidPrefix lib junk cPrefix = .ok (parsedPrefix lib cPrefix) := by
  have fits : (cPrefix ++ [0]).length ≤ addrbuflen := by
    rw [List.length_append, List.length_singleton]
    exact short
  have string (rest : List Byte) : rdString (cPrefix ++ [0] ++ rest) 0 = .ok cPrefix := by
    rw [rdString, List.drop_zero, if_pos (by simp), List.append_assoc,
      List.takeWhile_append_of_pos (fun c mem => by simpa using ne_of_mem_of_not_mem mem noNul)]
    simp
  rw [eidPrefix, memcpy, dif_pos fits]
  change (call (rdString (cPrefix ++ [0] ++ _) 0) >>= _) = _
  rw [string]
  change (if 0x2f ∉ cPrefix then _ else _) = _
  unfold parsedPrefix
  split
  · rfl
  · next slash =>
      cases lib.getaddrinfo (some (cPrefix.takeWhile (· ≠ 0x2f))) lispControlPort with
      | none => rfl
      | some res =>
          have inside : (cPrefix.takeWhile (· ≠ 0x2f)).length < 1024 :=
            Nat.lt_of_le_of_lt (List.takeWhile_sublist _).length_le
              (Nat.lt_trans short (by decide))
          simp only [ ascii2prefix, bitlenOf, if_neg slash, if_pos inside]
          rfl

/-- Copying a key over the field gives a string that is the key. -/
theorem memcpy_key (authkey : Bytes lispMaxKeylen) (key : Key)
    : ∃ authkey', memcpy authkey (key.text ++ [0]) = .ok authkey' ∧ 0 ∈ authkey'.toList
        ∧ authkey'.toList.takeWhile (· ≠ 0) = key.text := by
  have fits : (key.text ++ [0]).length ≤ lispMaxKeylen := by
    rw [List.length_append, List.length_singleton]
    exact key.short
  refine ⟨_, dif_pos fits, ?_, ?_⟩
  · exact List.mem_append_left _ (List.mem_append_right _ List.mem_cons_self)
  change (key.text ++ [0] ++ _).takeWhile (· ≠ 0) = key.text
  rw [List.append_assoc, List.takeWhile_append_of_pos
    (fun c mem => by simpa using ne_of_mem_of_not_mem mem key.noNul)]
  simp

section

variable {lib : Library} {junk : Junk} {st : Lixyd} {sites : Sites}

/-- The command answers as the map does, and leaves the daemon's EIDs the map's sites. -/
def Follows (lib : Library) (junk : Junk) (st : Lixyd) (sites : Sites) (cmd : EidCommand) : Prop :=
  ∃ st', configEid lib junk (cmd.words[·]?) st = .ok ((sitesStep lib sites cmd).1, st')
    ∧ Refines st' (sitesStep lib sites cmd).2

theorem configEid_create {name : Word}
    : configEid lib junk ((EidCommand.create name).words[·]?) st
      = match searchEid name.text st with
        | some _ => answer .errEidExists st
        | none => answer .success
            { st with eidTuple := appendListnode st.eidTuple (createEidInstance name.text) } := rfl

theorem configEid_delete {name : Word}
    : configEid lib junk ((EidCommand.delete name).words[·]?) st
      = match searchEid name.text st with
        | none => answer .errEidDoesNotExists st
        | some (place, _) => answer .success
            { st with eidTuple := deleteListnode st.eidTuple place } := rfl

theorem configEid_authkey {name : Word} {key : Key}
    : configEid lib junk ((EidCommand.authkey name key).words[·]?) st
      = match searchEid name.text st with
        | none => answer .errEidDoesNotExists st
        | some (place, eid) =>
            if key.text.length > lispMaxKeylen then
              answer .errAuthkeyTooLong st
            else
              memcpy eid.authkey (key.text ++ [0]) >>= fun authkey =>
                answer .success (st.writeEid place { eid with authkey }) := rfl

theorem Refines.create_follows (inv : Refines st sites) {name : Word}
    (told : ∀ other, sites other ≠ none
      → other.take lispEidNameLen = name.text.take lispEidNameLen → other = name.text)
    : Follows lib junk st sites (.create name) := by
  rw [Follows, configEid_create]
  rcases inv.search name.noNul told
    with ⟨missed, absent, differs⟩ | ⟨site, _, _, _, hit, _, there, _⟩
  · simp only [missed, sitesStep, absent]
    exact ⟨_, rfl, inv.create name.noNul told absent differs⟩
  · simp only [hit, sitesStep, there]
    exact ⟨_, rfl, inv⟩

theorem Refines.delete_follows (inv : Refines st sites) {name : Word}
    (told : ∀ other, sites other ≠ none
      → other.take lispEidNameLen = name.text.take lispEidNameLen → other = name.text)
    : Follows lib junk st sites (.delete name) := by
  rw [Follows, configEid_delete]
  rcases inv.search name.noNul told
    with ⟨missed, absent, _⟩ | ⟨site, front, eid, back, hit, split, there, stores⟩
  · simp only [missed, sitesStep, absent]
    exact ⟨_, rfl, inv⟩
  · simp only [hit, sitesStep, there]
    exact ⟨_, rfl, inv.delete split there stores⟩

theorem Refines.authkey_follows (inv : Refines st sites) {name : Word} {key : Key}
    (told : ∀ other, sites other ≠ none
      → other.take lispEidNameLen = name.text.take lispEidNameLen → other = name.text)
    : Follows lib junk st sites (.authkey name key) := by
  rw [Follows, configEid_authkey]
  rcases inv.search name.noNul told
    with ⟨missed, absent, _⟩ | ⟨site, front, eid, back, hit, split, there, stores⟩
  · simp only [missed, sitesStep, absent]
    exact ⟨_, rfl, inv⟩
  · obtain ⟨authkey, copied, _, string⟩ := memcpy_key eid.authkey key
    have notLong : ¬ key.text.length > lispMaxKeylen := Nat.not_lt.mpr (Nat.le_of_lt key.short)
    simp only [hit, sitesStep, there, if_neg notLong, copied]
    refine ⟨_, rfl, inv.write split there stores ?_⟩
    exact { noNul := stores.noNul, name := stores.name, authkey := string,
            prefixes := stores.prefixes }

/-- A command on the prefixes of an EID, where what it does to an EID that there is follows the
map.
-/
theorem Refines.prefixes_follow (inv : Refines st sites) {cmd : EidCommand} {name cPrefix : Word}
    (next : Nat → Eid → Prefix → Except CommandFault (ReturnType × Lixyd))
    (told : ∀ other, sites other ≠ none
      → other.take lispEidNameLen = name.text.take lispEidNameLen → other = name.text)
    (short : sites name.text ≠ none → cPrefix.text.length < addrbuflen)
    {change : Site → Prefix → ReturnType × Sites}
    (dispatched : configEid lib junk (cmd.words[·]?) st
      = match searchEid name.text st with
        | none => answer .errEidDoesNotExists st
        | some (place, eid) => eidPrefix lib junk cPrefix.text >>= fun
            | none => answer .errInvalidAddress st
            | some pfx => next place eid pfx)
    (stepped : sitesStep lib sites cmd = changePrefixes lib sites name.text cPrefix.text change)
    (follows : ∀ front eid back site pfx, st.eidTuple.nodes = front ++ eid :: back
      → sites name.text = some site → Stores eid name.text site
      → ∃ st', next front.length eid pfx = .ok ((change site pfx).1, st')
        ∧ Refines st' (change site pfx).2)
    : Follows lib junk st sites cmd := by
  rw [Follows, dispatched, stepped]
  rcases inv.search name.noNul told
    with ⟨missed, absent, _⟩ | ⟨site, front, eid, back, hit, split, there, stores⟩
  · simp only [missed, changePrefixes, absent]
    exact ⟨_, rfl, inv⟩
  · have parse := @eidPrefix_eq lib junk cPrefix.text cPrefix.noNul (short (by rw [there]; nofun))
    simp only [hit, changePrefixes, there, parse, bind, Except.bind]
    cases parsedPrefix lib cPrefix.text with
    | none => exact ⟨_, rfl, inv⟩
    | some pfx => exact follows front eid back site pfx split there stores

/-- A search for a prefix tells whether it is among those of the site. -/
theorem searchPrefix_eq_none_iff {list : ListT Prefix} {pfx : Prefix}
    : searchPrefix list pfx = none ↔ list.nodes.any (comparePrefix pfx) = false := by
  rw [searchPrefix, searchListnode_eq_none, List.any_eq_false]
  simp

/-- What is left of `cmd_set_eid_prefix` for an EID that was found and a prefix. -/
def addPrefix (st : Lixyd) (place : Nat) (eid : Eid) (pfx : Prefix)
    : Except CommandFault (ReturnType × Lixyd) :=
  match searchPrefix eid.prefixTuple pfx with
  | some _ => answer .errAddressExists st
  | none =>
      answer .success
        (st.writeEid place { eid with prefixTuple := appendListnode eid.prefixTuple pfx })

/-- What is left of `cmd_unset_eid_prefix` for an EID that was found and a prefix. -/
def dropPrefix (st : Lixyd) (place : Nat) (eid : Eid) (pfx : Prefix)
    : Except CommandFault (ReturnType × Lixyd) :=
  match searchPrefix eid.prefixTuple pfx with
  | none => answer .errAddressDoesNotExists st
  | some (pplace, _) =>
      answer .success
        (st.writeEid place { eid with prefixTuple := deleteListnode eid.prefixTuple pplace })

theorem Refines.setPrefix_follows (inv : Refines st sites) {name cPrefix : Word}
    (told : ∀ other, sites other ≠ none
      → other.take lispEidNameLen = name.text.take lispEidNameLen → other = name.text)
    (short : sites name.text ≠ none → cPrefix.text.length < addrbuflen)
    : Follows lib junk st sites (.setPrefix name cPrefix) := by
  refine inv.prefixes_follow (addPrefix st) told short rfl rfl ?_
  intro front eid back site pfx split there stores
  rw [← stores.prefixes]
  unfold addPrefix
  cases found : searchPrefix eid.prefixTuple pfx with
  | none =>
      rw [if_neg (by rw [searchPrefix_eq_none_iff.mp found]; exact Bool.false_ne_true)]
      refine ⟨_, rfl, inv.write split there stores ?_⟩
      exact {
        noNul := stores.noNul
        name := stores.name
        authkey := stores.authkey
        prefixes := rfl
      }
  | some hit =>
      have among : eid.prefixTuple.nodes.any (comparePrefix pfx) = true := by
        by_contra missing
        rw [searchPrefix_eq_none_iff.mpr (eq_false_of_ne_true missing)] at found
        cases found
      rw [if_pos among]
      exact ⟨_, rfl, inv⟩

theorem Refines.unsetPrefix_follows (inv : Refines st sites) {name cPrefix : Word}
    (told : ∀ other, sites other ≠ none
      → other.take lispEidNameLen = name.text.take lispEidNameLen → other = name.text)
    (short : sites name.text ≠ none → cPrefix.text.length < addrbuflen)
    : Follows lib junk st sites (.unsetPrefix name cPrefix) := by
  refine inv.prefixes_follow (dropPrefix st) told short rfl rfl ?_
  intro front eid back site pfx split there stores
  rw [← stores.prefixes]
  unfold dropPrefix
  cases found : searchPrefix eid.prefixTuple pfx with
  | none =>
      rw [if_neg (by rw [searchPrefix_eq_none_iff.mp found]; exact Bool.false_ne_true)]
      exact ⟨_, rfl, inv⟩
  | some hit =>
      obtain ⟨pplace, entry⟩ := hit
      obtain ⟨before, behind, list, rfl, equal, others⟩ := searchListnode_split found
      have among : eid.prefixTuple.nodes.any (comparePrefix pfx) = true :=
        List.any_eq_true.mpr ⟨entry, by simp [list], equal⟩
      rw [if_pos among]
      refine ⟨_, rfl, inv.write split there stores ?_⟩
      refine {
        noNul := stores.noNul
        name := stores.name
        authkey := stores.authkey
        prefixes := ?_
      }
      change (deleteListnode eid.prefixTuple before.length).nodes = _
      rw [(deleteListnode_split list rfl).1, list,
        List.eraseP_append_right _ (fun other mem => by simp [others other mem]),
        List.eraseP_cons_of_pos equal]

end

-----------------------------------------------------------------------------------------
-- Runs
-----------------------------------------------------------------------------------------

/-- The daemon answered as the map does, and its EIDs are the map's sites. -/
structure Agreeing (s : Beside) : Prop where
  answers : s.answers = s.expected
  refines : Refines s.lixyd s.sites

theorem agreeing_start : Agreeing .start :=
  ⟨rfl, { stored := nofun, present := nofun, distinct := List.nodup_nil, apart := nofun }⟩

/-- A command whose name the fields tell apart goes through, and keeps the agreement. -/
theorem agreeing_step {lib : Library} {s : Beside} {e : Junk × EidCommand} (inv : Agreeing s)
    (fits : Fits s e)
    : ∃ s', besideStep lib s e = .ok s' ∧ Agreeing s' := by
  obtain ⟨junk, cmd⟩ := e
  obtain ⟨told, short⟩ := fits
  have follows : Follows lib junk s.lixyd s.sites cmd := by
    cases cmd with
    | create name => exact inv.refines.create_follows told
    | delete name => exact inv.refines.delete_follows told
    | authkey name key => exact inv.refines.authkey_follows told
    | setPrefix name cPrefix => exact inv.refines.setPrefix_follows told (short _ rfl)
    | unsetPrefix name cPrefix => exact inv.refines.unsetPrefix_follows told (short _ rfl)
  obtain ⟨lixyd, done, refines⟩ := follows
  refine ⟨_, by rw [besideStep, done]; rfl, ?_, refines⟩
  exact congrArg (· ++ [(sitesStep lib s.sites cmd).1]) inv.answers

/-- Every run of commands on EIDs whose names the fields tell apart goes through, answers as the
finite map does, and leaves the map's sites.
-/
theorem eidStore_agrees {lib : Library} {events : List (Junk × EidCommand)}
    (fits : Guarded (besideStep lib) Fits .start events)
    : ∃ s, run (besideStep lib) .start events = .ok s ∧ s.answers = s.expected
        ∧ Refines s.lixyd s.sites := by
  obtain ⟨s, done, inv⟩ := fits.progress (fun _ _ inv fits => agreeing_step inv fits) agreeing_start
  exact ⟨s, done, inv.answers, inv.refines⟩

/-- A word for testing. -/
def word (literal : String) (noNul : 0 ∉ ascii literal := by decide) : Word := ⟨ascii literal, noNul⟩

/-- Witness: creating the EID a and adding a prefix to it. -/
theorem prefixOfA_agrees
    : ∃ s, run (besideStep testLibrary) .start
          [(testJunk, .create (word "a")), (testJunk, .setPrefix (word "a") (word "10.0.0.0/8"))]
        = .ok s
      ∧ s.answers = s.expected ∧ s.expected = [.success, .success] := by
  have fits : Guarded (besideStep testLibrary) Fits .start
      [(testJunk, .create (word "a")), (testJunk, .setPrefix (word "a") (word "10.0.0.0/8"))] := by
    refine ⟨⟨fun _ there => absurd rfl there, nofun⟩, fun next created => ?_⟩
    refine ⟨⟨?_, ?_⟩, fun _ _ => trivial⟩
    · cases created
      intro other there _
      by_contra ne
      exact there (Function.update_of_ne ne _ _)
    · rintro _ ⟨⟩ _
      decide
  obtain ⟨s, done, answers, _⟩ := eidStore_agrees fits
  refine ⟨s, done, answers, ?_⟩
  cases done
  rfl

/-- Deleting an EID by a name that differs from its name in the 17th byte. -/
theorem otherName_deletes
    : ∃ s, run (besideStep testLibrary) .start
          [(testJunk, .create (word "aaaaaaaaaaaaaaaa1")),
            (testJunk, .delete (word "aaaaaaaaaaaaaaaa2"))]
        = .ok s
      ∧ s.answers = [.success, .success] ∧ s.expected = [.success, .errEidDoesNotExists]
      ∧ ¬ Refines s.lixyd s.sites := by
  refine ⟨_, rfl, rfl, rfl, fun refines => ?_⟩
  obtain ⟨eid, mem, _⟩ := refines.present (ascii "aaaaaaaaaaaaaaaa1") _ rfl
  cases mem

end Lixy.Control
