import Lixy.Control.CommandEffects
import Lixy.Daemon.ValidEvents

/-! Which stored entries the route listing writes a line for, and the tables on which these are
the entries asked for.
-/

namespace Lixy.Control

open ByteStrings
open PatriciaNode

-----------------------------------------------------------------------------------------
-- What is asked for
-----------------------------------------------------------------------------------------

/-- The documented type that asks for a state. -/
def typeWord : MapState → List Byte
  | .active => ascii "active"
  | .negative => ascii "negative"
  | .drop => ascii "drop"
  | .queried => ascii "queried"
  | .static => ascii "static"

/-- The entry is in the state asked for, which is any where no type is given. -/
def inState (type : Option MapState) (e : Prefix × Mapnode) : Bool := type.all (· == e.2.state)

/-- The listing is to show the entry. -/
def listed (af : Nat) (type : Option MapState) (e : Prefix × Mapnode) : Bool :=
  inState type e && e.1.family == af

/-- The walk breaks off at the entry. -/
def breaksOff (af : Nat) (type : Option MapState) (e : Prefix × Mapnode) : Bool :=
  inState type e && e.1.family != af

/-- The line for an entry. -/
def showLine (e : Prefix × Mapnode) : ShowLine := .route e.1 e.2.addr e.2.state

/-- What `state` is for a documented type. -/
def stateOf : Option MapState → Int
  | none => -1
  | some state => mapstate state

theorem showState_documented {junk : Junk} {word : Option (List Byte)} {type : Option MapState}
    (documented : word = type.map typeWord)
    : showState junk word = .ok (stateOf type) := by
  subst documented
  rcases type with _ | _ | _ | _ | _ | _ <;> rfl

/-- The test of the walk picks the entries in the state asked for. -/
theorem selects_stateOf {type : Option MapState} (pfx : Prefix) (mn : Mapnode)
    : selects (stateOf type) (some mn) = .ok (inState type (pfx, mn)) := by
  cases type with
  | none => rfl
  | some state =>
      have positive : ¬ mapstate state < 0 := by cases state <;> decide
      have same : (mapstate state == mapstate mn.state) = (state == mn.state) := by
        cases state <;> cases mn.state <;> rfl
      rw [stateOf, selects, if_neg positive, same]
      rfl

-----------------------------------------------------------------------------------------
-- The walk
-----------------------------------------------------------------------------------------

section

variable {af : Nat} {type : Option MapState}

/-- The body at an entry: a line for one that is listed, a break for one of another family. -/
theorem showRouteNode_eq {shown : List ShowLine × Lisp} {pn : Loc Mapnode}
    {e : Prefix × Mapnode} {a bit : Nat} {l r : PatriciaNode Mapnode}
    (node_eq : pn.node = node a bit (some e.1) (some e.2) l r)
    : showRouteNode af (stateOf type) shown pn
      = .ok ((shown.1 ++ ([e].filter (listed af type)).map showLine, shown.2),
          breaksOff af type e) := by
  simp only [showRouteNode, node_eq, selects_stateOf e.1 e.2]
  by_cases asked : inState type e = true
  · by_cases own : e.1.family = af
    · simp [asked, own, listed, breaksOff, showLine, bind, Except.bind, pure, Except.pure]
    · simp [asked, own, listed, breaksOff, bind, Except.bind, pure, Except.pure]
  · simp [asked, listed, breaksOff, bind, Except.bind, pure, Except.pure]

/-- The walk writes the lines of the entries it meets, and changes nothing. -/
theorem showRoute_replays {lisp : Lisp} (ok : TableOk lisp.rib)
    : Replays (fun (shown : List ShowLine × Lisp) => shown.2.rib.tree.head)
        (showRouteNode af (stateOf type)) (fun shown => shown.2 = lisp)
        (stopsAt (breaksOff af type)) (fun _ => false) Prod.fst
        (fun lines n => lines ++ ((ownEntry n).filter (listed af type)).map showLine) where
  wf := fun shown same => same ▸ ok.wf
  distinct := fun shown same => same ▸ ok.distinct
  bare := fun _ _ _ _ _ => ⟨rfl, rfl, fun _ => List.append_nil _⟩
  step := by
    intro shown z shown' broke a bit pfx data l r same visits node_eq done
    obtain ⟨e, a', bit', l', r', node_eq'⟩ := visits.entry
    have within := Loc.within (z := z) (by simp [node_eq])
    rw [node_eq, visits.head] at within
    rw [showRouteNode_eq node_eq'] at done
    obtain ⟨rfl, rfl⟩ := Prod.mk.inj (Except.ok.inj done)
    obtain ⟨rfl, rfl, rfl, rfl, rfl, rfl⟩ := PatriciaNode.node.inj (node_eq.symm.trans node_eq')
    rw [node_eq]
    refine ⟨same, ?_, rfl, Keeps.refl within⟩
    simp [stopsAt, ownEntry, nodeEntry]

/-- The listing writes the lines of the listed entries that the walk reaches, in order. -/
theorem cmdShowRoute_lines {junk : Junk} {args : Args} {st : Lixyd} (ok : TableOk st.lisp.rib)
    (documented : args 2 = type.map typeWord)
    : cmdShowRoute junk args af st
      = .ok (.successNoMessage,
          ((reached (breaksOff af type) st.lisp.head).filter (listed af type)).map showLine,
          st) := by
  have written (lines : List ShowLine) (ns : List (PatriciaNode Mapnode))
      : ns.foldl
          (fun lines n => lines ++ ((ownEntry n).filter (listed af type)).map showLine) lines
        = lines ++ ((ns.flatMap ownEntry).filter (listed af type)).map showLine := by
    induction ns generalizing lines with
    | nil => simp
    | cons n rest ih => simp [ih]
  have replays
      : Replays _ (showRouteNode af (stateOf type)) _ (stopsAt (breaksOff af type)) _ _ _ :=
    showRoute_replays ok
  rcases replays.walkTree (show (([] : List ShowLine), st.lisp).2 = st.lisp from rfl)
    with ⟨shown, z, f, _, _, visits, _, failed⟩ | ⟨w, walked, same, lines, _⟩
  · obtain ⟨e, a, bit, l, r, node_eq⟩ := visits.entry
    rw [showRouteNode_eq node_eq] at failed
    cases failed
  · rw [written, List.nil_append] at lines
    rw [cmdShowRoute, showState_documented documented]
    change (call (walkTree _ (showRouteNode af (stateOf type)) ([], st.lisp)) >>= _) = _
    rw [walked]
    change Except.ok (ReturnType.successNoMessage, w.st.1, { st with lisp := w.st.2 }) = _
    rw [lines, same]
    rfl

end

-----------------------------------------------------------------------------------------
-- Exact listings
-----------------------------------------------------------------------------------------

/-- `cmd_show_route` writes one line for each entry that it is to show, and no other. -/
def ListsExactly (junk : Junk) (args : Args) (af : Nat) (type : Option MapState) (st : Lixyd)
    : Prop :=
  ∃ lines, cmdShowRoute junk args af st = .ok (.successNoMessage, lines, st)
    ∧ lines.Perm ((st.lisp.rib.entries.filter (listed af type)).map showLine)

/-- On a table in order, the listing is exact exactly when no entry of another family that is
in the state asked for covers an entry that is to be shown.
-/
theorem listsExactly_iff {junk : Junk} {args : Args} {af : Nat} {type : Option MapState}
    {st : Lixyd} (ok : TableOk st.lisp.rib) (documented : args 2 = type.map typeWord)
    : ListsExactly junk args af type st
      ↔ ∀ e ∈ st.lisp.rib.entries, listed af type e = true → ∀ s ∈ st.lisp.rib.entries,
          breaksOff af type s = true → ¬ s.1.key <+: e.1.key := by
  let shown := (reached (breaksOff af type) st.lisp.head).filter (listed af type)
  have part : shown.Sublist (st.lisp.rib.entries.filter (listed af type)) :=
    (reached_sublist st.lisp.head).filter _
  have mem_shown {e : Prefix × Mapnode} : e ∈ shown
      ↔ (e ∈ st.lisp.rib.entries ∧ Unblocked (breaksOff af type) st.lisp.rib.entries e)
        ∧ listed af type e = true := by
    rw [List.mem_filter]
    exact and_congr_left' ok.wf.mem_reached
  have lines : cmdShowRoute junk args af st = .ok (.successNoMessage, shown.map showLine, st) :=
    cmdShowRoute_lines ok documented
  constructor
  · rintro ⟨lines', done, perm⟩ e mem asked s there other covers
    obtain rfl : shown.map showLine = lines' := by
      rw [lines] at done
      exact (Prod.mk.inj (Prod.mk.inj (Except.ok.inj done)).2).1
    have whole : shown = st.lisp.rib.entries.filter (listed af type) :=
      part.eq_of_length (by simpa using perm.length_eq)
    have inShown : e ∈ shown := whole ▸ List.mem_filter.mpr ⟨mem, asked⟩
    have same := (mem_shown.mp inShown).1.2 s there other covers
    -- the two families of one entry
    rw [ok.wf.entry_unique there mem same] at other
    simp only [listed, breaksOff, Bool.and_eq_true, beq_iff_eq, bne_iff_ne] at asked other
    exact other.2 asked.2
  · intro clear
    refine ⟨shown.map showLine, lines, ?_⟩
    have distinct : (st.lisp.rib.entries.filter (listed af type)).Nodup :=
      (List.Nodup.of_map _ ok.wf.keys_nodup).filter _
    have all : st.lisp.rib.entries.filter (listed af type) ⊆ shown := by
      intro e inside
      obtain ⟨mem, asked⟩ := List.mem_filter.mp inside
      exact mem_shown.mpr ⟨⟨mem, fun s there other covers =>
        absurd covers (clear e mem asked s there other)⟩, asked⟩
    have whole : shown = st.lisp.rib.entries.filter (listed af type) :=
      part.eq_of_length_le (distinct.length_le_of_subset all)
    rw [whole]

/-- A route for 0a00::/16. -/
def tenSixRoute : Destination :=
  { family := afInet6, address := ⟨[0x0a] ++ List.replicate 15 0, rfl⟩, bitlen := some 16 }

/-- The words `show ipv6-route`. -/
def showSix : Args := wordsOf ["show", "ipv6-route"]

/-- Routes for 10.128.0.0/9 and 0a00::/16, and a learned entry for 10.1.0.0/16. -/
def mixedEvents : List Event :=
  [.installRoute nineNet .zero, .installRoute tenSixRoute .zero, .message 40 sixteenReply]

set_option maxRecDepth 4000 in
/-- Witness: with these entries, none of which covers another, the IPv6 routes are listed
exactly, and so are the IPv4 routes that are STATIC.
-/
theorem mixedEvents_listed
    : ∃ lisp, EventRuns.run step Lisp.start mixedEvents = .ok lisp
        ∧ lisp.rib.entries.map (fun e => (e.1.family, e.1.bitlen, e.2.state))
          = [(afInet6, 16, .static), (afInet, 16, .active), (afInet, 9, .static)]
        ∧ ListsExactly testJunk showSix afInet6 none { Lixyd.start with lisp }
        ∧ ListsExactly testJunk (wordsOf ["show", "ipv4-route", "static"]) afInet (some .static)
          { Lixyd.start with lisp } := by
  obtain ⟨lisp, done, entries, apart⟩
      : ∃ lisp, EventRuns.run step Lisp.start mixedEvents = .ok lisp
        ∧ lisp.rib.entries.map (fun e => (e.1.family, e.1.bitlen, e.2.state))
          = [(afInet6, 16, .static), (afInet, 16, .active), (afInet, 9, .static)]
        ∧ ∀ e ∈ lisp.rib.entries, ∀ s ∈ lisp.rib.entries, s.1.key <+: e.1.key
          → s.1.family = e.1.family :=
    ⟨_, rfl, rfl, by decide⟩
  have ok := tableOk_of_reachable ⟨_, done⟩
  refine ⟨lisp, done, entries, (listsExactly_iff ok rfl).mpr ?_, (listsExactly_iff ok rfl).mpr ?_⟩
  · intro e mem asked s there other covers
    simp only [listed, breaksOff, Bool.and_eq_true, beq_iff_eq, bne_iff_ne] at asked other
    exact other.2 ((apart e mem s there covers).trans asked.2)
  · intro e mem asked s there other covers
    simp only [listed, breaksOff, Bool.and_eq_true, beq_iff_eq, bne_iff_ne] at asked other
    exact other.2 ((apart e mem s there covers).trans asked.2)

/-- With a route for 10.0.0.0/8 beside it, the route for 0a00::/16 is not listed. -/
theorem tenRoute_hides_tenSixRoute
    : ¬ ∀ (junk : Junk) (args : Args) (af : Nat) (type : Option MapState) (st : Lixyd),
        TableOk st.lisp.rib → args 2 = type.map typeWord → ListsExactly junk args af type st := by
  intro exact_
  obtain ⟨lisp, done, written, inTable⟩
      : ∃ lisp, EventRuns.run step Lisp.start
            [.installRoute tenNet .zero, .installRoute tenSixRoute .zero] = .ok lisp
        ∧ cmdShowRoute testJunk showSix afInet6 { Lixyd.start with lisp }
          = .ok (.successNoMessage, [], { Lixyd.start with lisp })
        ∧ (lisp.rib.entries.filter (listed afInet6 none)).length = 1 :=
    ⟨_, rfl, rfl, by decide⟩
  obtain ⟨lines, shown, perm⟩ := exact_ testJunk showSix afInet6 none { Lixyd.start with lisp }
    (tableOk_of_reachable ⟨_, done⟩) rfl
  obtain rfl : [] = lines :=
    (Prod.mk.inj (Prod.mk.inj (Except.ok.inj (written.symm.trans shown))).2).1
  have count := perm.length_eq
  rw [List.length_map, inTable] at count
  cases count

end Lixy.Control
