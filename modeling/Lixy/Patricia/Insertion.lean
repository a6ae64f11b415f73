import Lixy.Patricia.Searching

/-! `patricia_lookup` finds the node of its prefix or adds one, keeping the tree well
formed. Witness of the whole module: the common part of the new key and the key compared
with marks the one place on the descended path where the new node belongs.
-/

namespace Lixy

open ByteStrings
open PatriciaNode
open LongestPrefix (best)

variable {α : Type}

/-- A prefix that `patricia_lookup` can give a node of the right key: it is short enough,
its copy keeps the key, and one of an unknown family, which has no copy, has length 0.
-/
structure Prefix.Storable (pfx : Prefix) : Prop where
  short : pfx.bitlen ≤ 128
  copyable : pfx.Copyable
  unknown : refPrefix pfx = none → pfx.bitlen = 0

theorem Prefix.Valid.family {pfx : Prefix} (h : pfx.Valid)
    : pfx.family = afInet ∨ pfx.family = afInet6 :=
  h.imp And.left And.left

theorem Prefix.Valid.storable {pfx : Prefix} (h : pfx.Valid) : pfx.Storable := by
  refine ⟨h.bitlen_le, h.copyable, fun none => ?_⟩
  have copied := refPrefix_isSome h.family
  simp [none] at copied

/-- A node for a storable prefix is well formed once it carries data. -/
theorem Prefix.Storable.nodeOk {pfx : Prefix} (h : pfx.Storable) (d : α) (both : Prop)
    : NodeOk pfx.key pfx.bitlen (refPrefix pfx) (some d) both where
  keyLength := pfx.key_length
  bound := h.short
  own := fun _ copied => ⟨(refPrefix_eq_some copied h.copyable).2.2, rfl⟩
  glue := fun none => Or.inl ⟨h.unknown none, rfl⟩

-----------------------------------------------------------------------------------------
-- What a lookup hands back
-----------------------------------------------------------------------------------------

/-- The tree is unchanged and already carries an entry under the prefix's key. -/
structure SlotFound (before after : PatriciaTree α) (pfx : Prefix) (z : Loc α) : Prop where
  same : after = before
  head : z.head = before.head
  locOk : LocOk z
  holds : ∃ e, z.Holds e ∧ e.1.key = pfx.key

/-- A new node waits for its data; with data the tree is well formed again and holds
exactly one thing more than before.
-/
structure SlotFresh (before after : PatriciaTree α) (pfx : Prefix) (z : Loc α) : Prop where
  node : ∃ a l r, z.node = PatriciaNode.node a pfx.bitlen (refPrefix pfx) none l r
  locOk : ∀ d, LocOk (z.setData d)
  held : ∀ {γ : Type} (f : Option Prefix → Option α → List γ), f none none = []
    → ∀ d, ((z.setData d).head.collect (fun _ => f)).Perm
        (f (refPrefix pfx) (some d) ++ before.head.collect (fun _ => f))
  maxbits : after.maxbits = before.maxbits
  addrs : ∃ k, after.brk = before.brk + k
    ∧ ∀ d, (z.setData d).head.addrs.Perm (List.range' before.brk k ++ before.head.addrs)

theorem LocOk.wellFormed {z : Loc α} (h : LocOk z) : WellFormed z.head := by
  obtain ⟨_, _, path, below, sub⟩ := h
  exact path.plug below sub

-----------------------------------------------------------------------------------------
-- The way down and the way back up
-----------------------------------------------------------------------------------------

/-- The descent stops at some position of the same tree, by induction on the subtree. -/
theorem lookupDescend_locOk (addr : List Byte) (bitlen maxbits : Nat) {n : PatriciaNode α}
    {path : List (Frame α)} (start : LocOk ⟨n, path⟩)
    : LocOk (lookupDescend addr bitlen maxbits n path)
      ∧ (lookupDescend addr bitlen maxbits n path).head = plug n path := by
  induction n generalizing path with
  | null => exact ⟨start, rfl⟩
  | node a bit pfx data l r ihl ihr =>
      obtain ⟨req, k, hpath, below, hk⟩ := id start
      have side (b : Bool) (child : PatriciaNode.side b l r ≠ null)
          : LocOk ⟨PatriciaNode.side b l r,
              ⟨a, bit, pfx, data, b, PatriciaNode.side (!b) l r⟩ :: path⟩ := by
        obtain ⟨kc, belowc, hkc⟩ := (hk.side b).rooted child
        exact ⟨k ++ [b], kc, hpath.side below hk b, belowc, hkc⟩
      rw [lookupDescend]
      split
      · split
        · split
          · exact ⟨start, rfl⟩
          · next _ _ child => exact ihr (side true (by simpa [PatriciaNode.side] using child))
        · split
          · exact ⟨start, rfl⟩
          · next _ _ child => exact ihl (side false (by simpa [PatriciaNode.side] using child))
      · exact ⟨start, rfl⟩

/-- The way up ends at the topmost node reaching past bit `differ`, whose key still leads
to where the way up began. By induction on the path.
-/
theorem climb_spec {differ : Nat} {n : PatriciaNode α} {path : List (Frame α)}
    {req k : List Bool} (hpath : PathOk path req) (below : req <+: k) (hn : Rooted k n)
    (deep : differ ≤ k.length)
    : (climb differ n path).head = plug n path
      ∧ ∃ top key, PathOk (climb differ n path).path top
        ∧ top <+: key
        ∧ Rooted key (climb differ n path).node
        ∧ key <+: k
        ∧ differ ≤ key.length
        ∧ top.length ≤ differ := by
  induction path generalizing n req k with
  | nil =>
      obtain rfl : req = [] := hpath
      exact ⟨rfl, [], k, rfl, List.nil_prefix, hn, List.prefix_rfl, deep, Nat.zero_le _⟩
  | cons f path ih =>
      obtain ⟨kf, rfl, node, sibling, above, hab, habove⟩ := id hpath
      rw [climb]
      split
      · next past =>
          obtain ⟨head, top, key, hp, ht, hs, up, rest⟩ :=
            ih habove hab (rooted_fill node sibling hn below) (by rw [node.keyLength]; exact past)
          exact ⟨head, top, key, hp, ht, hs,
            up.trans ((List.prefix_append kf [f.right]).trans below), rest⟩
      · next before =>
          refine ⟨rfl, kf ++ [f.right], k, hpath, below, hn, List.prefix_rfl, deep, ?_⟩
          simp only [List.length_append, List.length_singleton, node.keyLength]
          omega

-----------------------------------------------------------------------------------------
-- The place of the new node
-----------------------------------------------------------------------------------------

/-- Position `z`, with key `key`, is where the node of `pfx` belongs: `common` is the
longest part its key shares with the key compared with.
-/
structure Junction (pfx : Prefix) (testAddr : List Byte) (common top key : List Bool)
    (z : Loc α) : Prop where
  path : PathOk z.path top
  sub : Rooted key z.node
  top : top <+: common
  inKey : common <+: key
  inPfx : common <+: pfx.key
  test : common.length < key.length → common ++ [bitAt testAddr common.length] <+: key
  next : common.length < pfx.bitlen
    → common ++ [bitAt pfx.add.toList common.length] <+: pfx.key
  turn : common.length < pfx.bitlen → common.length < key.length
    → bitAt pfx.add.toList common.length ≠ bitAt testAddr common.length

/-- Leading bits extended by the next one. -/
theorem bits_next (addr : List Byte) {n m : Nat} (lt : n < m)
    : bits addr n ++ [bitAt addr n] <+: bits addr m := by
  rw [← bits_succ]
  exact bits_prefix_of_le addr lt

/-- Comparing with the node the descent stopped at gives the junction. -/
theorem climb_junction {pfx test : Prefix} {a bit : Nat} {data : Option α}
    {l r : PatriciaNode α} {z : Loc α} (ok : LocOk z)
    (node_eq : z.node = node a bit (some test) data l r)
    : ∃ common top key, common.length
          = differBit pfx.add.toList test.add.toList (if bit < pfx.bitlen then bit else pfx.bitlen)
        ∧ (climb common.length z.node z.path).head = z.head
        ∧ Junction pfx test.add.toList common top key (climb common.length z.node z.path) := by
  obtain ⟨n, path⟩ := z
  obtain rfl : n = node a bit (some test) data l r := node_eq
  obtain ⟨req, k, hpath, below, hn⟩ := ok
  set checkBit := if bit < pfx.bitlen then bit else pfx.bitlen with hcheck
  have own : test.key = k := (hn.1.own test rfl).1
  have size : test.bitlen = bit := by rw [← test.key_length, own, hn.1.keyLength]
  obtain ⟨le, same, differs⟩ := differBit_spec pfx.add.toList test.add.toList checkBit
  set differ := differBit pfx.add.toList test.add.toList checkBit with hdiffer
  have leKey : differ ≤ test.bitlen := by rw [hcheck] at le; split at le <;> omega
  have lePfx : differ ≤ pfx.bitlen := by rw [hcheck] at le; split at le <;> omega
  obtain ⟨head, top, key, hp, ht, hs, up, deep, low⟩ :=
    climb_spec hpath below hn (show differ ≤ k.length by rw [hn.1.keyLength, ← size]; exact leKey)
  have upTest : key <+: bits test.add.toList test.bitlen := by rwa [← own] at up
  have inTest : bits test.add.toList differ <+: bits test.add.toList test.bitlen :=
    bits_prefix_of_le _ leKey
  have inKey : bits test.add.toList differ <+: key :=
    List.prefix_of_prefix_length_le inTest upTest (by simpa using deep)
  have keyShort : key.length ≤ test.bitlen := by simpa using upTest.length_le
  have len : (bits test.add.toList differ).length = differ := bits_length _ _
  refine ⟨bits test.add.toList differ, top, key, len, ?_⟩
  rw [len]
  refine ⟨head, ?_⟩
  exact {
    path := hp
    sub := hs
    top := List.prefix_of_prefix_length_le ht inKey (by rw [len]; exact low)
    inKey := inKey
    inPfx := same ▸ bits_prefix_of_le _ lePfx
    test := by
      rw [len]
      intro lt
      exact List.prefix_of_prefix_length_le (bits_next _ (by omega)) upTest (by simp; omega)
    next := by
      rw [len, ← same]
      exact bits_next _
    turn := by
      rw [len]
      intro ltPfx ltKey
      exact differs (by rw [hcheck]; split <;> omega) }

-----------------------------------------------------------------------------------------
-- Adding the node
-----------------------------------------------------------------------------------------

/-- Replacing a subtree by one that holds `extra` more adds just that to the tree. -/
theorem plug_replace {γ : Type} {f : Nat → Option Prefix → Option α → List γ}
    {new old : PatriciaNode α} {extra : List γ} (path : List (Frame α))
    (more : (new.collect f).Perm (extra ++ old.collect f))
    : ((plug new path).collect f).Perm (extra ++ (plug old path).collect f) := by
  refine (plug_collect f new path).trans ?_
  refine (more.append_right _).trans ?_
  rw [List.append_assoc]
  exact (plug_collect f old path).symm.append_left extra

/-- A subtree `new d` replacing `old` below `path` is a fresh slot. -/
theorem slotFresh_of_replace {before after : PatriciaTree α} {pfx : Prefix} {z : Loc α}
    {old : PatriciaNode α} {path : List (Frame α)} {k : Nat} (new : α → PatriciaNode α)
    (node : ∃ a l r, z.node = PatriciaNode.node a pfx.bitlen (refPrefix pfx) none l r)
    (locOk : ∀ d, LocOk (z.setData d))
    (head : before.head = plug old path) (newHead : ∀ d, (z.setData d).head = plug (new d) path)
    (held : ∀ {γ : Type} (f : Option Prefix → Option α → List γ), f none none = []
      → ∀ d, ((new d).collect (fun _ => f)).Perm
          (f (refPrefix pfx) (some d) ++ old.collect (fun _ => f)))
    (addrs : ∀ d, (new d).addrs.Perm (List.range' before.brk k ++ old.addrs))
    (maxbits : after.maxbits = before.maxbits) (brk : after.brk = before.brk + k)
    : SlotFresh before after pfx z where
  node := node
  locOk := locOk
  held := by
    intro γ f empty d
    rw [newHead, head]
    exact plug_replace path (held f empty d)
  maxbits := maxbits
  addrs := by
    refine ⟨k, brk, fun d => ?_⟩
    rw [newHead, head]
    exact plug_replace path (addrs d)

/-- A childless node for a storable prefix. -/
theorem Prefix.Storable.rooted_fresh {pfx : Prefix} (h : pfx.Storable) (a : Nat) (d : α)
    : Rooted pfx.key (node a pfx.bitlen (refPrefix pfx) (some d) null null) :=
  ⟨h.nodeOk d _, Or.inl rfl, Or.inl rfl⟩

section Attach

variable {before after : PatriciaTree α} {pfx : Prefix} {testAddr : List Byte}
  {common top key : List Bool} {a bit : Nat} {npfx : Option Prefix} {data : Option α}
  {l r : PatriciaNode α} {path : List (Frame α)}

/-- Glue standing for the prefix's key becomes its node. -/
theorem Junction.complete
    (junction : Junction pfx testAddr common top key ⟨node a bit none none l r, path⟩)
    (storable : pfx.Storable) (head : before.head = plug (node a bit none none l r) path)
    (whole : common.length = pfx.bitlen) (here : bit = pfx.bitlen)
    (maxbits : after.maxbits = before.maxbits) (brk : after.brk = before.brk + 0)
    : SlotFresh before after pfx ⟨node a bit (refPrefix pfx) none l r, path⟩ := by
  have hk := junction.sub
  have keyEq : key = pfx.key := by
    rw [← junction.inPfx.eq_of_length (by simpa using whole),
      junction.inKey.eq_of_length (by rw [hk.1.keyLength, whole, here])]
  subst keyEq
  refine slotFresh_of_replace (fun d => node a bit (refPrefix pfx) (some d) l r)
    ⟨a, l, r, by rw [here]⟩ ?_ head (fun d => rfl) ?_ ?_ maxbits brk
  · intro d
    exact ⟨top, pfx.key, junction.path, junction.top.trans junction.inKey,
      here.symm ▸ storable.nodeOk d _, hk.2⟩
  · intro γ f empty d
    simp [collect, empty]
  · intro d
    exact List.Perm.refl _

/-- The new node becomes a child of a node that ends where the keys part. -/
theorem Junction.child
    (junction : Junction pfx testAddr common top key ⟨node a bit npfx data l r, path⟩)
    (storable : pfx.Storable) (head : before.head = plug (node a bit npfx data l r) path)
    (here : bit = common.length) (short : common.length < pfx.bitlen) {b : Bool}
    (hb : bitAt pfx.add.toList bit = b) (free : side b l r = null)
    (maxbits : after.maxbits = before.maxbits) (brk : after.brk = before.brk + 1)
    : SlotFresh before after pfx
        ⟨node before.brk pfx.bitlen (refPrefix pfx) none null null,
          ⟨a, bit, npfx, data, b, side (!b) l r⟩ :: path⟩ := by
  have hk := junction.sub
  have keyEq : common = key := junction.inKey.eq_of_length (by rw [hk.1.keyLength, here])
  subst keyEq
  let frame : Frame α := ⟨a, bit, npfx, data, b, side (!b) l r⟩
  have old : node a bit npfx data l r = frame.fill null := by
    rw [← fill_side a bit npfx data l r b, free]
  refine slotFresh_of_replace
    (fun d => frame.fill (node before.brk pfx.bitlen (refPrefix pfx) (some d) null null))
    ⟨_, _, _, rfl⟩ ?_ head (fun d => rfl) ?_ ?_ maxbits brk
  · intro d
    have turned := junction.next short
    rw [← here, hb] at turned
    exact ⟨_, pfx.key, junction.path.side junction.top hk b, turned, storable.rooted_fresh _ d⟩
  · intro γ f _ d
    rw [old]
    refine (fill_collect _ _ _).trans ?_
    simpa only [collect, List.append_nil, List.nil_append]
      using (fill_collect (fun _ => f) frame null).symm.append_left (f (refPrefix pfx) (some d))
  · intro d
    rw [old]
    refine (fill_collect _ _ _).trans ?_
    exact (fill_collect (fun addr _ _ => [addr]) frame null).symm.append_left [before.brk]

/-- The new node becomes the parent of a node whose key extends the prefix's. -/
theorem Junction.parent {m : PatriciaNode α} {b : Bool}
    (junction : Junction pfx testAddr common top key ⟨m, path⟩)
    (storable : pfx.Storable) (head : before.head = plug m path)
    (whole : common.length = pfx.bitlen) (past : common.length < key.length)
    (hb : bitAt testAddr pfx.bitlen = b)
    (maxbits : after.maxbits = before.maxbits) (brk : after.brk = before.brk + 1)
    : SlotFresh before after pfx
        ⟨node before.brk pfx.bitlen (refPrefix pfx) none (side b m null) (side b null m),
          path⟩ := by
  have keyEq : common = pfx.key := junction.inPfx.eq_of_length (by simpa using whole)
  have turned := junction.test past
  rw [whole, hb, keyEq] at turned
  refine slotFresh_of_replace
    (fun d => node before.brk pfx.bitlen (refPrefix pfx) (some d)
      (side b m null) (side b null m))
    ⟨_, _, _, rfl⟩ ?_ head (fun d => rfl) ?_ ?_ maxbits brk
  · intro d
    refine ⟨top, pfx.key, junction.path, keyEq ▸ junction.top, storable.nodeOk d _, ?_, ?_⟩
    · cases b
      · exact Or.inr ⟨key, turned, junction.sub⟩
      · exact Or.inl rfl
    · cases b
      · exact Or.inl rfl
      · exact Or.inr ⟨key, turned, junction.sub⟩
  · intro γ f _ d
    cases b <;> simp [collect, side]
  · intro d
    cases b <;> simp [addrs_node, side]

/-- New glue where the keys part takes the new node and the old one as its children. -/
theorem Junction.glue {m : PatriciaNode α} {b : Bool}
    (junction : Junction pfx testAddr common top key ⟨m, path⟩)
    (storable : pfx.Storable) (head : before.head = plug m path)
    (short : common.length < pfx.bitlen) (past : common.length < key.length)
    (hb : bitAt pfx.add.toList common.length = b)
    (maxbits : after.maxbits = before.maxbits) (brk : after.brk = before.brk + 2)
    : SlotFresh before after pfx
        ⟨node before.brk pfx.bitlen (refPrefix pfx) none null null,
          ⟨before.brk + 1, common.length, none, none, b, m⟩ :: path⟩ := by
  have turn := junction.turn short past
  have mine := junction.next short
  have other := junction.test past
  rw [hb] at turn mine
  rw [show bitAt testAddr common.length = !b by cases b <;> simp_all] at other
  refine slotFresh_of_replace
    (fun d => Frame.fill ⟨before.brk + 1, common.length, none, none, b, m⟩
      (node before.brk pfx.bitlen (refPrefix pfx) (some d) null null))
    ⟨_, _, _, rfl⟩ ?_ head (fun d => rfl) ?_ ?_ maxbits brk
  · intro d
    have glueOk
        : NodeOk common common.length (none : Option Prefix) (none : Option α) (m ≠ null) := by
      have bound := storable.short
      exact ⟨rfl, by omega, nofun, fun _ => Or.inr ⟨rfl, junction.sub.ne_null⟩⟩
    exact ⟨common ++ [b], pfx.key,
      ⟨common, rfl, glueOk, Or.inr ⟨key, other, junction.sub⟩, top, junction.top, junction.path⟩,
      mine, storable.rooted_fresh _ d⟩
  · intro γ f empty d
    refine (fill_collect _ _ _).trans ?_
    simp [collect, empty]
  · intro d
    refine (fill_collect _ _ _).trans ?_
    simp [collect, addrs, List.range']

end Attach

/-- `patricia_lookup` behind the climb: what it returns from a junction is the prefix's
node. One case per branch of the source.
-/
theorem patriciaAttach_spec {before after : PatriciaTree α} {pfx : Prefix}
    {testAddr : List Byte} {common top key : List Bool} {z z' : Loc α}
    (junction : Junction pfx testAddr common top key z) (storable : pfx.Storable)
    (head : z.head = before.head) (maxbits : before.maxbits = 128)
    (done : patriciaAttach before pfx testAddr common.length z = .ok (after, z'))
    : SlotFound before after pfx z' ∨ SlotFresh before after pfx z' := by
  obtain ⟨n, path⟩ := z
  have hn := junction.sub
  cases n with
  | null => exact hn.elim
  | node a bit npfx data l r =>
      have keyLen : key.length = bit := hn.1.keyLength
      have le := junction.inKey.length_le
      have lePfx := junction.inPfx.length_le
      have bound := hn.1.bound
      simp only [Prefix.key_length] at lePfx
      simp only [patriciaAttach, addrBit_eq, maxbits] at done
      split at done
      · next both =>
          split at done
          · next p =>
              obtain ⟨rfl, rfl⟩ := Prod.mk.inj (Except.ok.inj done)
              obtain ⟨own, carried⟩ := hn.1.own p rfl
              obtain ⟨d, rfl⟩ := Option.isSome_iff_exists.mp carried
              refine Or.inl ⟨rfl, head, ⟨top, key, junction.path,
                junction.top.trans junction.inKey, hn⟩, (p, d), ⟨a, bit, l, r, rfl⟩, ?_⟩
              rw [own, ← junction.inPfx.eq_of_length (by simpa using both.1),
                junction.inKey.eq_of_length (by omega)]
          · split at done
            · cases done
            · next empty =>
                obtain ⟨rfl, rfl⟩ := Prod.mk.inj (Except.ok.inj done)
                obtain rfl : data = none := by simpa using empty
                exact Or.inr (junction.complete storable head.symm both.1 both.2 maxbits.symm rfl)
      · next notBoth =>
          split at done
          · next here =>
              have short : common.length < pfx.bitlen := by
                rcases Nat.lt_or_eq_of_le lePfx with lt | eq
                · exact lt
                · exact absurd ⟨eq, by omega⟩ notBoth
              have inside : bit < 128 := by have := storable.short; omega
              simp only [inside, true_and] at done
              split at done
              · next hb =>
                  split at done
                  · next free =>
                      obtain ⟨rfl, rfl⟩ := Prod.mk.inj (Except.ok.inj done)
                      exact Or.inr (junction.child storable head.symm here short hb
                        (isNull_eq_true.mp free) maxbits.symm rfl)
                  · cases done
              · next hb =>
                  split at done
                  · next free =>
                      obtain ⟨rfl, rfl⟩ := Prod.mk.inj (Except.ok.inj done)
                      exact Or.inr (junction.child storable head.symm here short
                        (by simpa using hb) (isNull_eq_true.mp free) maxbits.symm rfl)
                  · cases done
          · next beyond =>
              have past : common.length < key.length := by omega
              split at done
              · next whole =>
                  have inside : pfx.bitlen < 128 := by omega
                  simp only [inside, true_and] at done
                  split at done
                  · next hb =>
                      obtain ⟨rfl, rfl⟩ := Prod.mk.inj (Except.ok.inj done)
                      exact Or.inr
                        (junction.parent storable head.symm whole.symm past hb maxbits.symm rfl)
                  · next hb =>
                      obtain ⟨rfl, rfl⟩ := Prod.mk.inj (Except.ok.inj done)
                      exact Or.inr (junction.parent storable head.symm whole.symm past
                        (by simpa using hb) maxbits.symm rfl)
              · next part =>
                  have inside : common.length < 128 := by omega
                  obtain ⟨rfl, rfl⟩ := Prod.mk.inj (Except.ok.inj done)
                  simp only [inside, decide_true, Bool.true_and]
                  exact Or.inr
                    (junction.glue storable head.symm (by omega) past rfl maxbits.symm rfl)

/-- On a well-formed tree `patricia_lookup` either fails an assertion or returns the node
of its prefix, found or fresh.
-/
theorem patriciaLookup_spec {before after : PatriciaTree α} {pfx : Prefix} {z : Loc α}
    (wf : WellFormed before.head) (maxbits : before.maxbits = 128) (storable : pfx.Storable)
    (done : patriciaLookup before pfx = .ok (after, z))
    : SlotFound before after pfx z ∨ SlotFresh before after pfx z := by
  rw [patriciaLookup, if_pos (maxbits.symm ▸ storable.short)] at done
  split at done
  · next empty =>
      obtain ⟨rfl, rfl⟩ := Prod.mk.inj (Except.ok.inj done)
      have none : before.head = plug null [] := isNull_eq_true.mp empty
      right
      refine slotFresh_of_replace (k := 1)
        (fun d => node before.brk pfx.bitlen (refPrefix pfx) (some d) null null)
        ⟨_, _, _, rfl⟩ ?_ none (fun d => rfl) ?_ ?_ rfl rfl
      · exact fun d => ⟨[], pfx.key, rfl, List.nil_prefix, storable.rooted_fresh _ d⟩
      · intro γ f _ d
        simp [collect]
      · intro d
        simp [addrs_node]
  · next some =>
      obtain ⟨k, _, hk⟩ := wf.rooted (by simpa using some)
      have start : LocOk ⟨before.head, []⟩ := ⟨[], k, rfl, List.nil_prefix, hk⟩
      obtain ⟨stopOk, stopHead⟩ :=
        lookupDescend_locOk pfx.add.toList pfx.bitlen before.maxbits start
      dsimp only at done
      split at done
      · cases done
      · cases done
      · next node_eq =>
          obtain ⟨common, top, key, len, head, junction⟩ := climb_junction stopOk node_eq
          rw [← len] at done
          exact patriciaAttach_spec junction storable (head.trans stopHead) maxbits done

-----------------------------------------------------------------------------------------
-- Storing data in the node found
-----------------------------------------------------------------------------------------

/-- What the operations keep of a tree: it is well formed, with keys of up to 128 bits,
no address is used twice and `calloc` returns unused ones.
-/
structure TreeOk (t : PatriciaTree α) : Prop where
  wf : WellFormed t.head
  maxbits : t.maxbits = 128
  distinct : t.head.addrs.Nodup
  fresh : ∀ a ∈ t.head.addrs, a < t.brk

theorem treeOk_newPatricia : TreeOk (newPatricia 128 : PatriciaTree α) where
  wf := Or.inl rfl
  maxbits := rfl
  distinct := List.nodup_nil
  fresh := nofun

/-- A tree holds what a node, its children and the path above it hold. -/
theorem head_collect_of_node {γ : Type} {z : Loc α} {a bit : Nat} {pfx : Option Prefix}
    {data : Option α} {l r : PatriciaNode α}
    (f : Nat → Option Prefix → Option α → List γ)
    (node_eq : z.node = PatriciaNode.node a bit pfx data l r)
    : (z.head.collect f).Perm
        (f a pfx data ++ (l.collect f ++ r.collect f ++ pathCollect f z.path)) := by
  refine (plug_collect f z.node z.path).trans ?_
  rw [node_eq]
  simp only [collect, List.append_assoc]
  exact List.Perm.refl _

/-- Replacing the data of a node that has some keeps the tree. -/
theorem LocOk.setData {z : Loc α} (h : LocOk z) {e : Prefix × α} (holds : z.Holds e) (d : α)
    : LocOk (z.setData d) := by
  obtain ⟨req, k, path, below, hn⟩ := h
  obtain ⟨a, bit, l, r, node_eq⟩ := holds
  refine ⟨req, k, path, below, ?_⟩
  rw [node_eq] at hn
  simp only [Loc.setData, node_eq, PatriciaNode.setData]
  refine ⟨⟨hn.1.keyLength, hn.1.bound, fun p own => ⟨(hn.1.own p own).1, rfl⟩, ?_⟩, hn.2⟩
  intro none
  cases none

theorem Loc.Holds.mem {z : Loc α} {e : Prefix × α} (h : z.Holds e) : e ∈ z.head.entries := by
  obtain ⟨a, bit, l, r, node_eq⟩ := h
  exact (head_collect_of_node _ node_eq).mem_iff.mpr (by simp [nodeEntry])

theorem Loc.Holds.data {z : Loc α} {e : Prefix × α} (h : z.Holds e) : z.data = some e.2 := by
  obtain ⟨a, bit, l, r, node_eq⟩ := h
  simp [Loc.data, node_eq]

theorem Loc.Holds.setData {z : Loc α} {e : Prefix × α} (h : z.Holds e) (d : α)
    : (z.setData d).Holds (e.1, d) := by
  obtain ⟨a, bit, l, r, node_eq⟩ := h
  exact ⟨a, bit, l, r, by simp [Loc.setData, node_eq, PatriciaNode.setData]⟩

/-- Replacing the data of a node replaces its entry. -/
theorem LocOk.store_setData {z : Loc α} (h : LocOk z) {e : Prefix × α} (holds : z.Holds e)
    (d : α)
    : (z.setData d).head.store = LongestPrefix.insert z.head.store e.1.key (e.1, d) := by
  have wf := h.wellFormed
  have wf' := (h.setData holds d).wellFormed
  refine store_eq_insert wf' wf (holds.setData d).mem ?_
  intro other ne
  obtain ⟨a, bit, l, r, node_eq⟩ := holds
  have node_eq' : (z.setData d).node = PatriciaNode.node a bit (some e.1) (some d) l r := by
    simp [Loc.setData, node_eq, PatriciaNode.setData]
  rw [PatriciaNode.entries, (head_collect_of_node _ node_eq').mem_iff, PatriciaNode.entries,
    (head_collect_of_node _ node_eq).mem_iff]
  have notNew : other ≠ (e.1, d) := fun same => ne (by rw [same])
  have notOld : other ≠ e := fun same => ne (by rw [same])
  simp only [nodeEntry, List.singleton_append, List.mem_cons, notNew, notOld, false_or]
  rfl

/-- Setting data moves no node. -/
theorem setData_addrs (z : Loc α) (d : α) : (z.setData d).head.addrs.Perm z.head.addrs := by
  refine (plug_collect _ _ _).trans (List.Perm.trans ?_ (plug_collect _ _ _).symm)
  obtain ⟨n, path⟩ := z
  cases n <;> exact List.Perm.refl _

/-- The key of a fresh slot was not stored before. -/
theorem SlotFresh.empty {before after : PatriciaTree α} {pfx : Prefix} {z : Loc α}
    (fresh : SlotFresh before after pfx z) (storable : pfx.Storable) (d : α)
    : ∀ e ∈ before.head.entries, e.1.key ≠ pfx.key := by
  obtain ⟨a, l, r, node_eq⟩ := fresh.node
  have node_eq' : (z.setData d).node
      = PatriciaNode.node a pfx.bitlen (refPrefix pfx) (some d) l r := by
    simp [Loc.setData, node_eq, PatriciaNode.setData]
  obtain ⟨req, k, path, below, hn⟩ := fresh.locOk d
  have old := (fresh.held nodeEntry rfl d).symm.trans (head_collect_of_node _ node_eq')
  have others := (List.perm_append_left_iff _).mp old
  rw [node_eq'] at hn
  have keyEq : k = pfx.key := by
    cases copied : refPrefix pfx with
    | some copy =>
        rw [← (hn.1.own copy copied).1, (refPrefix_eq_some copied storable.copyable).2.2]
    | none =>
        have zero := storable.unknown copied
        rw [List.length_eq_zero_iff.mp (hn.1.keyLength.trans zero),
          List.length_eq_zero_iff.mp (pfx.key_length.trans zero)]
  intro e he
  rw [← keyEq]
  exact path.others_ne below hn (others.mem_iff.mp he)

/-- A tree with a filled fresh slot is in order. -/
theorem SlotFresh.treeOk {before after : PatriciaTree α} {pfx : Prefix} {z : Loc α}
    (fresh : SlotFresh before after pfx z) (ok : TreeOk before) (d : α)
    : TreeOk { after with head := (z.setData d).head } := by
  obtain ⟨k, brk, addrs⟩ := fresh.addrs
  refine ⟨(fresh.locOk d).wellFormed, fresh.maxbits.trans ok.maxbits, ?_, ?_⟩
  · rw [(addrs d).nodup_iff, List.nodup_append]
    refine ⟨List.nodup_range', ok.distinct, ?_⟩
    intro a new b old
    have lt := ok.fresh b old
    simp only [List.mem_range'_1] at new
    omega
  · intro a ha
    rw [(addrs d).mem_iff, List.mem_append, List.mem_range'_1] at ha
    change a < after.brk
    rcases ha with new | old
    · omega
    · have lt := ok.fresh a old
      omega

/-- What setting the data of a looked up node does to the stored entries. -/
structure Stores (before after : PatriciaNode α) (pfx : Prefix) (d : α) (stored : Prefix)
    : Prop where
  key : stored.key = pfx.key
  store : after.store = LongestPrefix.insert before.store pfx.key (stored, d)
  new : before.store pfx.key = none → refPrefix pfx = some stored
  old : ∀ e, before.store pfx.key = some e → stored = e.1

/-- Storing `d` in the node that `patricia_lookup` returns keeps the tree and stores `d`
under the prefix's key. A prefix without a copy stores nothing.
-/
theorem patriciaLookup_setData {before after : PatriciaTree α} {pfx : Prefix} {z : Loc α}
    (ok : TreeOk before) (storable : pfx.Storable)
    (done : patriciaLookup before pfx = .ok (after, z)) (d : α)
    : TreeOk { after with head := (z.setData d).head }
      ∧ ((refPrefix pfx = none ∧ before.head.store pfx.key = none
            ∧ (z.setData d).head.store = before.head.store)
          ∨ ∃ stored, Stores before.head (z.setData d).head pfx d stored) := by
  rcases patriciaLookup_spec ok.wf ok.maxbits storable done with found | fresh
  · obtain ⟨rfl, head, locOk, e, holds, key⟩ := found
    have stored : after.head.store pfx.key = some e := by
      rw [ok.wf.store_eq_some_iff, ← head]
      exact ⟨holds.mem, key⟩
    refine ⟨⟨(locOk.setData holds d).wellFormed, ok.maxbits, ?_, ?_⟩, Or.inr ⟨e.1, key, ?_, ?_, ?_⟩⟩
    · rw [(setData_addrs z d).nodup_iff, head]
      exact ok.distinct
    · intro a ha
      rw [(setData_addrs z d).mem_iff, head] at ha
      exact ok.fresh a ha
    · rw [locOk.store_setData holds, head, key]
    · rw [stored]
      intro absent
      cases absent
    · rw [stored]
      rintro _ ⟨⟩
      rfl
  · have locOk := fresh.locOk d
    have wf' := locOk.wellFormed
    have empty := fresh.empty storable d
    have absent : before.head.store pfx.key = none := ok.wf.store_eq_none_iff.mpr empty
    have members : ∀ e, e ∈ (z.setData d).head.entries
        ↔ e ∈ nodeEntry (refPrefix pfx) (some d) ∨ e ∈ before.head.entries := by
      intro e
      rw [PatriciaNode.entries, (fresh.held nodeEntry rfl d).mem_iff, List.mem_append]
      rfl
    refine ⟨fresh.treeOk ok d, ?_⟩
    cases copied : refPrefix pfx with
    | none =>
        refine Or.inl ⟨rfl, absent, ?_⟩
        funext key
        ext e
        rw [wf'.store_eq_some_iff, ok.wf.store_eq_some_iff, members, copied]
        simp [nodeEntry]
    | some copy =>
        have key := (refPrefix_eq_some copied storable.copyable).2.2
        refine Or.inr ⟨copy, key, ?_, fun _ => copied, ?_⟩
        · rw [← key]
          refine @store_eq_insert _ _ _ wf' ok.wf (copy, d) ?_ ?_
          · rw [members, copied]
            simp [nodeEntry]
          · intro other ne
            rw [members, copied]
            have notNew : other ≠ (copy, d) := fun same => ne (by rw [same])
            simp [nodeEntry, notNew]
        · rw [absent]
          intro old there
          cases there

/-- All data lies on nodes that carry a prefix. -/
def NoOrphans (n : PatriciaNode α) : Prop := ∀ c ∈ n.carriers, c.1.isSome = true

/-- The data that `patricia_lookup` finds is what is stored under the key; where it finds
none, nothing was stored. `d` only witnesses that there is data to store.
-/
theorem patriciaLookup_data {before after : PatriciaTree α} {pfx : Prefix} {z : Loc α}
    (ok : TreeOk before) (storable : pfx.Storable)
    (done : patriciaLookup before pfx = .ok (after, z)) (d : α)
    : (∃ e, before.head.store pfx.key = some e ∧ z.data = some e.2 ∧ after = before)
      ∨ (before.head.store pfx.key = none ∧ z.data = none) := by
  rcases patriciaLookup_spec ok.wf ok.maxbits storable done with found | fresh
  · obtain ⟨rfl, head, locOk, e, holds, key⟩ := found
    refine Or.inl ⟨e, ?_, holds.data, rfl⟩
    rw [ok.wf.store_eq_some_iff, ← head]
    exact ⟨holds.mem, key⟩
  · obtain ⟨a, l, r, node_eq⟩ := fresh.node
    exact Or.inr ⟨ok.wf.store_eq_none_iff.mpr (fresh.empty storable d), by simp [Loc.data, node_eq]⟩

end Lixy
