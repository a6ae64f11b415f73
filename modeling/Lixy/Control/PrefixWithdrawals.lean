import Lixy.Control.EidStore
import Lixy.Control.DistinctEntries

/-! The two ways of withdrawing a prefix of an EID, and the lists on which they agree.
`unset_eid_prefix` compares families and addresses, the command lengths as well.
-/

namespace Lixy.Control

open ByteStrings
open EventRuns (run)

-----------------------------------------------------------------------------------------
-- unset_eid_prefix
-----------------------------------------------------------------------------------------

/-- `prefix_cmp` -/
def prefixCmp (p1 p2 : Prefix) : Bool :=
  if p1.family ≠ p2.family then
    false
  else if p1.family = afInet then
    sin p1.add == sin p2.add
  else if p1.family = afInet6 then
    p1.add == p2.add
  else
    false

/-- `unset_eid_prefix`, or nothing where it returns -1 -/
def unsetEidPrefix (eid : Eid) (pfx : Prefix) : Option Eid :=
  (searchListnode eid.prefixTuple (prefixCmp pfx)).map fun (place, _) =>
    { eid with prefixTuple := deleteListnode eid.prefixTuple place }

/-- The prefixes have one family and one address. -/
def sameAddress (p q : Prefix) : Bool := p.family == q.family && p.addr == q.addr

/-- `compare_prefix` is `prefix_cmp` and a comparison of the lengths. -/
theorem comparePrefix_eq (p q : Prefix)
    : comparePrefix p q = (prefixCmp p q && p.bitlen == q.bitlen) := by
  unfold comparePrefix prefixCmp
  by_cases family : p.family = q.family
  · by_cases bitlen : p.bitlen = q.bitlen
    · simp [family, bitlen]
    · simp [family, bitlen]
  · simp [family]

/-- `prefix_cmp` compares addresses where the family is known. -/
theorem prefixCmp_eq {p : Prefix} (known : p.addr.isSome) : prefixCmp p = sameAddress p := by
  funext q
  -- a prefix of the length that is not compared
  let r : Prefix := { q with bitlen := p.bitlen }
  have compared : comparePrefix p r = prefixCmp p r := by
    rw [comparePrefix_eq, beq_self_eq_true, Bool.and_true]
  have keys : prefixKey p = prefixKey r ↔ sameAddress p q = true := by
    simp [prefixKey, sameAddress, r, Prefix.addr]
  change prefixCmp p r = _
  rw [← compared, Bool.eq_iff_iff, comparePrefix_iff known, keys]

-----------------------------------------------------------------------------------------
-- Agreement
-----------------------------------------------------------------------------------------

/-- The argument of a command stands for a prefix. -/
def Spells (lib : Library) (junk : Junk) (cPrefix : List Byte) (p : Prefix) : Prop :=
  ∃ pfx, eidPrefix lib junk cPrefix = .ok (some pfx) ∧ prefixKey pfx = prefixKey p

/-- `eid NAME prefix P delete` -/
def deletePrefixCommand (lib : Library) (junk : Junk) (name cPrefix : List Byte) : Command :=
  execCommand lib junk
    ([ascii "eid", name, ascii "prefix", cPrefix, ascii "delete"][·]?)

/-- Both ways remove the first prefix with the family, length and address of `p` and keep the
others in order, or there is none, both fail and nothing changes.
-/
def WithdrawalsAgree (lib : Library) (junk : Junk) (name cPrefix : List Byte) (st : Lixyd)
    (place : Nat) (eid : Eid) (p : Prefix) : Prop :=
  (∃ front own back list', eid.prefixTuple.nodes = front ++ own :: back
      ∧ prefixKey own = prefixKey p ∧ (∀ other ∈ front, prefixKey other ≠ prefixKey p)
      ∧ list'.nodes = front ++ back
      ∧ unsetEidPrefix eid p = some { eid with prefixTuple := list' }
      ∧ deletePrefixCommand lib junk name cPrefix st
        = .ok (.success, st.writeEid place { eid with prefixTuple := list' }))
    ∨ (∀ other ∈ eid.prefixTuple.nodes, prefixKey other ≠ prefixKey p)
      ∧ unsetEidPrefix eid p = none
      ∧ deletePrefixCommand lib junk name cPrefix st = .ok (.errAddressDoesNotExists, st)

section

variable {lib : Library} {junk : Junk} {name cPrefix : List Byte} {st : Lixyd} {place : Nat}
  {eid : Eid} {p pfx : Prefix}

/-- A prefix that an argument stands for is of a known family. -/
theorem Spells.known (spells : Spells lib junk cPrefix p) : p.addr.isSome := by
  obtain ⟨pfx, parsed, same⟩ := spells
  have addr : pfx.addr = p.addr := congrArg (·.2.2) same
  exact addr ▸ (eidPrefix_valid lib junk parsed).addr_isSome

/-- The command for an EID that there is. -/
theorem deletePrefixCommand_eq (found : searchEid name st = some (place, eid))
    (parsed : eidPrefix lib junk cPrefix = .ok (some pfx))
    : deletePrefixCommand lib junk name cPrefix st = dropPrefix st place eid pfx := by
  have dispatched : deletePrefixCommand lib junk name cPrefix st
      = cmdUnsetEidPrefix lib junk
          ([ascii "eid", name, ascii "prefix", cPrefix, ascii "delete"][·]?) st := rfl
  rw [dispatched, cmdUnsetEidPrefix]
  simp only [List.getElem?_cons_succ, List.getElem?_cons_zero, found, parsed]
  rfl

/-- Equal keys are one address and one length. -/
theorem prefixKey_eq_iff {q : Prefix}
    : prefixKey q = prefixKey p ↔ sameAddress p q = true ∧ q.bitlen = p.bitlen := by
  simp only [prefixKey, sameAddress, Prod.mk.injEq, Bool.and_eq_true, beq_iff_eq]
  tauto

/-- The search depends on the key only. -/
theorem searchPrefix_congr {list : ListT Prefix} (valid : pfx.Valid) (known : p.addr.isSome)
    (same : prefixKey pfx = prefixKey p)
    : searchPrefix list pfx = searchPrefix list p := by
  have compares : comparePrefix pfx = comparePrefix p := by
    funext q
    rw [Bool.eq_iff_iff, comparePrefix_iff valid.addr_isSome, same, comparePrefix_iff known]
  rw [searchPrefix, compares, searchPrefix]

/-- The two ways agree exactly when the first prefix with the family and address of `p`, if
there is one, has its length too.
-/
theorem withdrawalsAgree_iff (found : searchEid name st = some (place, eid))
    (spells : Spells lib junk cPrefix p)
    : WithdrawalsAgree lib junk name cPrefix st place eid p
      ↔ ∀ first, eid.prefixTuple.nodes.find? (sameAddress p) = some first
          → first.bitlen = p.bitlen := by
  have known := spells.known
  obtain ⟨pfx, parsed, same⟩ := spells
  have compares (q : Prefix) : comparePrefix p q = (sameAddress p q && p.bitlen == q.bitlen) := by
    rw [comparePrefix_eq, prefixCmp_eq known]
  rw [WithdrawalsAgree, deletePrefixCommand_eq found parsed, dropPrefix,
    searchPrefix_congr (eidPrefix_valid lib junk parsed) known same, unsetEidPrefix,
    prefixCmp_eq known]
  cases hit : searchListnode eid.prefixTuple (sameAddress p) with
  | none =>
      have missed := searchListnode_eq_none.mp hit
      have absent : ∀ other ∈ eid.prefixTuple.nodes, prefixKey other ≠ prefixKey p :=
        fun other mem key =>
          Bool.noConfusion ((missed other mem).symm.trans (prefixKey_eq_iff.mp key).1)
      have missed' : searchPrefix eid.prefixTuple p = none :=
        searchListnode_eq_none.mpr fun other mem => by
          rw [compares, missed other mem, Bool.false_and]
      rw [missed']
      refine iff_of_true (.inr ⟨absent, rfl, rfl⟩) fun first there => ?_
      rw [List.find?_eq_none.mpr (by simpa using missed)] at there
      cases there
  | some hit' =>
      obtain ⟨place', first⟩ := hit'
      obtain ⟨front, back, split, rfl, equal, before⟩ := searchListnode_split hit
      have find : eid.prefixTuple.nodes.find? (sameAddress p) = some first := by
        rw [List.find?_eq_some_iff_append]
        exact ⟨equal, front, back, split, fun other mem => by simp [before other mem]⟩
      rw [find]
      constructor
      · rintro (⟨front', own, back', list', split', key, _, nodes, unset, _⟩ | ⟨_, unset, _⟩) _ ⟨⟩
        · obtain rfl : deleteListnode eid.prefixTuple front.length = list' :=
            (Eid.mk.inj (Option.some.inj unset)).2.2
          rw [(deleteListnode_split split rfl).1] at nodes
          -- what was removed is what the list has beside the rest
          have removed : (first :: (front ++ back)).Perm (own :: (front ++ back)) := by
            have both : (front ++ first :: back).Perm (own :: (front' ++ back')) := by
              rw [← split, split']
              exact List.perm_middle
            rw [← nodes] at both
            exact List.perm_middle.symm.trans both
          rw [← Multiset.coe_eq_coe, ← Multiset.cons_coe, ← Multiset.cons_coe,
            Multiset.cons_inj_left] at removed
          exact removed ▸ (prefixKey_eq_iff.mp key).2
        · cases unset
      · intro length
        have bitlen : first.bitlen = p.bitlen := length first rfl
        have hit' : searchPrefix eid.prefixTuple p = some (front.length, first) :=
          searchListnode_of_split split (by simp [compares, equal, bitlen])
            fun other mem => by rw [compares, before other mem, Bool.false_and]
        rw [hit']
        refine .inl ⟨front, first, back, deleteListnode eid.prefixTuple front.length, split,
          prefixKey_eq_iff.mpr ⟨equal, bitlen⟩, fun other mem key => ?_,
          (deleteListnode_split split rfl).1, rfl, rfl⟩
        exact Bool.noConfusion ((before other mem).symm.trans (prefixKey_eq_iff.mp key).1)

end

/-- The lengths of an EID's prefixes. -/
def prefixLengths (eid : Eid) : List Nat := eid.prefixTuple.nodes.map (·.bitlen)

/-- Witness: of 10.0.0.0/8 and 10.0.0.0/16, in this order, 10.0.0.0/8 is withdrawn. -/
theorem shorter_withdrawn
    : ∃ st place eid p, run (commandStep testLibrary) .start siteCommands = .ok st
        ∧ prefixLengths eid = [8, 16] ∧ p.bitlen = 8
        ∧ WithdrawalsAgree testLibrary testJunk (ascii "a") (ascii "10.0.0.0/8")
            st place eid p := by
  obtain ⟨st, place, eid, p, done, lengths, bitlen, found, parsed, first⟩ : ∃ st place eid p,
      run (commandStep testLibrary) .start siteCommands = .ok st
        ∧ prefixLengths eid = [8, 16] ∧ p.bitlen = 8
        ∧ searchEid (ascii "a") st = some (place, eid)
        ∧ eidPrefix testLibrary testJunk (ascii "10.0.0.0/8") = .ok (some p)
        ∧ (eid.prefixTuple.nodes.find? (sameAddress p)).map (·.bitlen) = some 8 :=
    ⟨_, _, _, _, rfl, rfl, rfl, rfl, rfl, rfl⟩
  refine ⟨st, place, eid, p, done, lengths, bitlen,
    (withdrawalsAgree_iff found ⟨p, parsed, rfl⟩).mpr fun other there => ?_⟩
  rw [there] at first
  exact (Option.some.inj first).trans bitlen.symm

/-- Of the same two, `unset_eid_prefix` removes 10.0.0.0/8 where 10.0.0.0/16 is withdrawn. -/
theorem longer_removes_shorter
    : ¬ ∀ (lib : Library) (junk : Junk) (name cPrefix : List Byte) (st : Lixyd) (place : Nat)
          (eid : Eid) (p : Prefix), searchEid name st = some (place, eid)
        → Spells lib junk cPrefix p → WithdrawalsAgree lib junk name cPrefix st place eid p := by
  intro agree
  obtain ⟨st, eid, p, _, lengths, found, parsed, unset, command⟩ : ∃ st eid p,
      run (commandStep testLibrary) .start siteCommands = .ok st
        ∧ st.eidTuple.nodes.map prefixLengths = [[8, 16]]
        ∧ searchEid (ascii "a") st = some (0, eid)
        ∧ eidPrefix testLibrary testJunk (ascii "10.0.0.0/16") = .ok (some p)
        ∧ (unsetEidPrefix eid p).map prefixLengths = some [16]
        ∧ (deletePrefixCommand testLibrary testJunk (ascii "a") (ascii "10.0.0.0/16") st).map
            (fun r => r.2.eidTuple.nodes.map prefixLengths)
          = .ok [[8]] :=
    ⟨_, _, _, rfl, rfl, rfl, rfl, rfl, rfl⟩
  rcases agree testLibrary testJunk (ascii "a") (ascii "10.0.0.0/16") st 0 eid p found
      ⟨p, parsed, rfl⟩
    with ⟨_, _, _, list', _, _, _, _, unset', command'⟩ | ⟨_, unset', _⟩
  · rw [unset'] at unset
    rw [command'] at command
    have left : prefixLengths { eid with prefixTuple := list' } = [16] := Option.some.inj unset
    have written : (st.eidTuple.nodes.set 0 { eid with prefixTuple := list' }).map prefixLengths
        = [[8]] := Except.ok.inj command
    rw [List.map_set, lengths, left] at written
    cases written
  · rw [unset'] at unset
    cases unset

end Lixy.Control
