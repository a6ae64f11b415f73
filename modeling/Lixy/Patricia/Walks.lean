import Lixy.Patricia.Removal
import Mathlib.Algebra.GroupWithZero.Nat

/-! The walk macros of patricia.h: a loop over the tree with an explicit stack, whose body
may change the tree under it. What a walk does is a fold over the nodes in preorder.
-/

namespace Lixy

open PatriciaNode

variable {α σ τ : Type}

-----------------------------------------------------------------------------------------
-- PATRICIA_WALK, PATRICIA_WALK_BREAK, PATRICIA_WALK_END
-----------------------------------------------------------------------------------------

/-- The variables of a walk, and the addresses of freed nodes it has read. -/
structure Walk (σ : Type) where
  st : σ
  rn : Option Nat
  stack : List Nat
  freedReads : List Nat

/-- `Xrn = *(--Xsp)`, or NULL from an empty stack. -/
def Walk.pop (w : Walk σ) : Walk σ :=
  match w.stack with
  | [] => { w with rn := none }
  | top :: rest => { w with rn := some top, stack := rest }

/-- `PATRICIA_WALK_END`, with the child pointers read from `Xrn`. -/
def Walk.next (l r : PatriciaNode α) (w : Walk σ) : Walk σ :=
  if l.isNull then
    if r.isNull then
      w.pop
    else
      { w with rn := r.ptr }
  else
    if r.isNull then
      { w with rn := l.ptr }
    else
      { w with rn := l.ptr, stack := r.ptr.toList ++ w.stack }

section Loop

variable (tree : σ → PatriciaNode α) (body : σ → Loc α → Except Fault (σ × Bool))

/-- One iteration at the node stored at `a`. The body runs only when the node has a
prefix; it returns whether it ended in `PATRICIA_WALK_BREAK`. When the body has freed the
node, the child pointers are read from the freed memory.
-/
def walkStep (w : Walk σ) (a : Nat) : Except Fault (Walk σ) :=
  match locate a (tree w.st) [] with
  | none => .error .danglingNode
  | some z =>
      match z.node with
      | .null => .error .nullDereference
      | .node _ _ pfx _ l r => do
          let (st, broke) ← if pfx.isSome then body w.st z else pure (w.st, false)
          let w := { w with st }
          if broke then
            return w.pop
          else
            match locate a (tree st) [] with
            | some ⟨.node _ _ _ _ l r, _⟩ => return w.next l r
            | _ => return { w.next l r with freedReads := a :: w.freedReads }

/-- `while ((Xnode = Xrn))` -/
def patriciaWalk : Nat → Walk σ → Except Fault (Walk σ)
  | 0, _ => .error .outOfSteps
  | fuel + 1, w =>
      match w.rn with
      | none => .ok w
      | some a => do patriciaWalk fuel (← walkStep tree body w a)

/-- A whole walk from the head. -/
def walkTree (st : σ) : Except Fault (Walk σ) :=
  patriciaWalk tree body ((tree st).size + 1)
    { st, rn := (tree st).ptr, stack := [], freedReads := [] }

end Loop

-----------------------------------------------------------------------------------------
-- Invariants of a walk
-----------------------------------------------------------------------------------------

variable {tree : σ → PatriciaNode α} {body : σ → Loc α → Except Fault (σ × Bool)}

/-- The body is applied to positions of the current tree whose nodes carry prefixes. -/
structure Visits (st : σ) (z : Loc α) (tree : σ → PatriciaNode α) : Prop where
  head : z.head = tree st
  locOk : LocOk z
  prefixed : z.hasPrefix = true

/-- A visited node carries an entry. -/
theorem Visits.entry {st : σ} {z : Loc α} (visits : Visits st z tree)
    : ∃ (e : Prefix × α) (a bit : Nat) (l r : PatriciaNode α),
        z.node = node a bit (some e.1) (some e.2) l r := by
  obtain ⟨req, k, _, _, hn⟩ := visits.locOk
  obtain ⟨a, bit, pfx, data, l, r, node_eq⟩ := hn.exists_node
  have prefixed := visits.prefixed
  rw [node_eq] at hn
  cases pfx with
  | none => simp [Loc.hasPrefix, node_eq] at prefixed
  | some pfx =>
      obtain ⟨d, rfl⟩ := Option.isSome_iff_exists.mp (hn.1.own pfx rfl).2
      exact ⟨(pfx, d), a, bit, l, r, node_eq⟩

@[simp]
theorem Walk.pop_st (w : Walk σ) : w.pop.st = w.st := by
  unfold Walk.pop
  split <;> rfl

@[simp]
theorem Walk.pop_freedReads (w : Walk σ) : w.pop.freedReads = w.freedReads := by
  unfold Walk.pop
  split <;> rfl

@[simp]
theorem Walk.next_st (l r : PatriciaNode α) (w : Walk σ) : (w.next l r).st = w.st := by
  unfold Walk.next
  split <;> split <;> simp

@[simp]
theorem Walk.next_freedReads (l r : PatriciaNode α) (w : Walk σ)
    : (w.next l r).freedReads = w.freedReads := by
  unfold Walk.next
  split <;> split <;> simp

/-- What one iteration does to the state: nothing, or one run of the body. -/
theorem walkStep_located {w w' : Walk σ} {a : Nat} (done : walkStep tree body w a = .ok w')
    : w'.st = w.st
      ∨ ∃ z broke, locate a (tree w.st) [] = some z ∧ z.hasPrefix = true
        ∧ body w.st z = .ok (w'.st, broke) := by
  unfold walkStep at done
  split at done
  · cases done
  · next z found =>
      obtain ⟨_, _, bit, pfx, data, l, r, node_eq⟩ := locate_some found
      rw [node_eq] at done
      dsimp only at done
      cases pfx with
      | none =>
          left
          simp only [Option.isSome_none, Bool.false_eq_true, if_false, pure_bind] at done
          split at done <;> · obtain rfl := Except.ok.inj done; simp
      | some p =>
          right
          simp only [Option.isSome_some, if_true] at done
          cases ran : body w.st z with
          | error f => simp [ran, bind, Except.bind] at done
          | ok result =>
              obtain ⟨st, broke⟩ := result
              rw [ran] at done
              have same : w'.st = st := by
                simp only [bind, Except.bind] at done
                split at done
                · obtain rfl := Except.ok.inj done
                  simp
                · split at done <;> · obtain rfl := Except.ok.inj done; simp
              refine ⟨z, broke, found, ?_, by rw [same]; exact ran⟩
              simp [Loc.hasPrefix, node_eq]

/-- In a well-formed tree the body runs at a position of it. -/
theorem walkStep_st {w w' : Walk σ} {a : Nat} (wf : WellFormed (tree w.st))
    (done : walkStep tree body w a = .ok w')
    : w'.st = w.st
      ∨ ∃ z broke, Visits w.st z tree ∧ body w.st z = .ok (w'.st, broke) := by
  rcases walkStep_located done with same | ⟨z, broke, found, prefixed, ran⟩
  · exact .inl same
  · obtain ⟨head, within, _⟩ := locate_some found
    have start : LocOk ⟨tree w.st, []⟩ := by
      obtain ⟨k, below, hk⟩ := wf.rooted (within.tree_ne_null)
      exact ⟨[], k, rfl, below, hk⟩
    exact .inr ⟨z, broke, ⟨head, locate_locOk found start, prefixed⟩, ran⟩

/-- What every iteration keeps, a walk keeps, by induction on its steps. -/
theorem patriciaWalk_steps {Inv : σ → Prop}
    (step : ∀ w w' a, Inv w.st → walkStep tree body w a = .ok w' → Inv w'.st)
    {fuel : Nat} {w w' : Walk σ} (start : Inv w.st)
    (done : patriciaWalk tree body fuel w = .ok w')
    : Inv w'.st := by
  induction fuel generalizing w with
  | zero => cases done
  | succ fuel ih =>
      rw [patriciaWalk] at done
      split at done
      · obtain rfl := Except.ok.inj done
        exact start
      · next a _ =>
          cases ran : walkStep tree body w a with
          | error f => simp [ran, bind, Except.bind] at done
          | ok w₁ =>
              rw [ran] at done
              exact ih (step _ _ _ start ran) done

/-- What every run of the body keeps, a walk keeps. -/
theorem patriciaWalk_keeps {Inv : σ → Prop}
    (keeps : ∀ st z st' broke, Inv st → body st z = .ok (st', broke) → Inv st')
    {fuel : Nat} {w w' : Walk σ} (start : Inv w.st)
    (done : patriciaWalk tree body fuel w = .ok w')
    : Inv w'.st := by
  refine patriciaWalk_steps (fun w w' a inv ran => ?_) start done
  rcases walkStep_located ran with same | ⟨z, broke, _, _, step⟩
  · rw [same]
    exact inv
  · exact keeps _ z _ broke inv step

-----------------------------------------------------------------------------------------
-- A walk replays the nodes in preorder
-----------------------------------------------------------------------------------------

/-- The subtrees whose nodes a walk meets, in order, when it skips what is below the nodes
that `stops` picks.
-/
def preorder (stops : PatriciaNode α → Bool) : PatriciaNode α → List (PatriciaNode α)
  | .null => []
  | .node a bit pfx data l r =>
      .node a bit pfx data l r ::
        if stops (.node a bit pfx data l r) then [] else preorder stops l ++ preorder stops r

theorem mem_preorder_self {stops : PatriciaNode α → Bool} {n : PatriciaNode α} (h : n ≠ null)
    : n ∈ preorder stops n := by
  cases n with
  | null => exact absurd rfl h
  | node a bit pfx data l r => simp [preorder]

/-- The body acts on `abs` of the state as `visit` does, breaks at the nodes `stops` picks
and frees the nodes `frees` picks. Nodes without prefix are passed over.
-/
structure Replays (tree : σ → PatriciaNode α) (body : σ → Loc α → Except Fault (σ × Bool))
    (Inv : σ → Prop) (stops frees : PatriciaNode α → Bool) (abs : σ → τ)
    (visit : τ → PatriciaNode α → τ) : Prop where
  wf : ∀ st, Inv st → WellFormed (tree st)
  distinct : ∀ st, Inv st → (tree st).addrs.Nodup
  bare : ∀ a bit data l r, stops (.node a bit none data l r) = false
    ∧ frees (.node a bit none data l r) = false
    ∧ ∀ t, visit t (.node a bit none data l r) = t
  step : ∀ st z st' broke a bit pfx data l r, Inv st → Visits st z tree
    → z.node = node a bit pfx data l r → body st z = .ok (st', broke)
    → Inv st'
      ∧ broke = stops z.node
      ∧ abs st' = visit (abs st) z.node
      ∧ Keeps (tree st) (tree st') a l r (frees z.node)

/-- The subtrees a walk has still to visit, the next one first. -/
structure Pending (t : PatriciaNode α) (w : Walk σ) (todo : List (PatriciaNode α)) : Prop where
  points : (w.rn.toList ++ w.stack).map some = todo.map ptr
  ends : w.rn = none → todo = []
  within : ∀ n ∈ todo, Within n t
  apart : (todo.flatMap addrs).Nodup

/-- The children that are there. -/
def children (l r : PatriciaNode α) : List (PatriciaNode α) :=
  (if l.isNull then [] else [l]) ++ (if r.isNull then [] else [r])

theorem mem_children {n l r : PatriciaNode α}
    : n ∈ children l r ↔ n ≠ null ∧ (n = l ∨ n = r) := by
  cases l <;> cases r <;> simp [children, isNull] <;> aesop

/-- A total over both children is a total over those that are there. -/
theorem children_flatMap {γ : Type} (f : PatriciaNode α → List γ) (empty : f null = [])
    (l r : PatriciaNode α)
    : (children l r).flatMap f = f l ++ f r := by
  cases l <;> cases r <;> simp [children, isNull, empty]

theorem children_size (l r : PatriciaNode α)
    : ((children l r).map size).sum = l.size + r.size := by
  cases l <;> cases r <;> simp [children, isNull, size]

theorem Walk.pop_points {w : Walk σ} {rest : List (PatriciaNode α)}
    (points : w.stack.map some = rest.map ptr)
    : (w.pop.rn.toList ++ w.pop.stack).map some = rest.map ptr
      ∧ (w.pop.rn = none → rest = []) := by
  unfold Walk.pop
  split
  · next empty =>
      rw [empty] at points
      exact ⟨by simpa [empty] using points, fun _ => by simpa using points.symm⟩
  · next full =>
      rw [full] at points
      exact ⟨by simpa using points, nofun⟩

theorem Walk.next_points {w : Walk σ} {rest : List (PatriciaNode α)} (l r : PatriciaNode α)
    (points : w.stack.map some = rest.map ptr)
    : ((w.next l r).rn.toList ++ (w.next l r).stack).map some
          = (children l r ++ rest).map ptr
      ∧ ((w.next l r).rn = none → children l r ++ rest = []) := by
  cases l <;> cases r
  · exact w.pop_points points
  all_goals simp [Walk.next, children, isNull, ptr, points]

variable {Inv : σ → Prop} {stops frees : PatriciaNode α → Bool} {abs : σ → τ}
  {visit : τ → PatriciaNode α → τ}

/-- After a node's iteration its children come next, then the rest. -/
theorem Pending.next {t t' : PatriciaNode α} {w w' : Walk σ} {a bit : Nat}
    {pfx : Option Prefix} {data : Option α} {l r : PatriciaNode α}
    {rest skipped : List (PatriciaNode α)} {freed : Bool}
    (pending : Pending t w (node a bit pfx data l r :: rest)) (keeps : Keeps t t' a l r freed)
    (some : ∀ n ∈ skipped, n ∈ children l r) (apart : (skipped.flatMap addrs).Nodup)
    (points : (w'.rn.toList ++ w'.stack).map Option.some = (skipped ++ rest).map ptr)
    (ends : w'.rn = none → skipped ++ rest = [])
    : Pending t' w' (skipped ++ rest) := by
  have split := pending.apart
  rw [List.flatMap_cons, List.nodup_append] at split
  obtain ⟨_, restApart, disjoint⟩ := split
  have inNode : ∀ n ∈ skipped, ∀ x ∈ n.addrs, x ∈ (node a bit pfx data l r).addrs := by
    intro n hn x hx
    obtain ⟨_, rfl | rfl⟩ := mem_children.mp (some n hn) <;> simp [addrs_node, hx]
  refine ⟨points, ends, ?_, ?_⟩
  · intro n hn
    rcases List.mem_append.mp hn with hn | hn
    · obtain ⟨present, same⟩ := mem_children.mp (some n hn)
      refine keeps.below n (same.imp ?_ ?_) <;> · rintro rfl; exact Within.self present
    · refine keeps.beside n (pending.within n (List.mem_cons_of_mem _ hn)) ?_
      intro inside
      exact disjoint a (by simp [addrs_node]) a (List.mem_flatMap.mpr ⟨n, hn, inside⟩) rfl
  · rw [List.flatMap_append, List.nodup_append]
    refine ⟨apart, restApart, ?_⟩
    intro x hx y hy
    obtain ⟨n, hn, hx⟩ := List.mem_flatMap.mp hx
    exact disjoint x (inNode n hn x hx) y hy

/-- The children of a pending node do not share addresses. -/
theorem Pending.children_apart {t : PatriciaNode α} {w : Walk σ} {a bit : Nat}
    {pfx : Option Prefix} {data : Option α} {l r : PatriciaNode α}
    {rest : List (PatriciaNode α)}
    (pending : Pending t w (node a bit pfx data l r :: rest))
    : ((children l r).flatMap addrs).Nodup := by
  have split := pending.apart
  rw [List.flatMap_cons, List.nodup_append, addrs_node, List.nodup_cons] at split
  rw [children_flatMap _ addrs_null]
  exact split.1.2

/-- An iteration whose body does not break goes on with the children, which it reads from
the tree or, when the body freed the node, from the freed memory.
-/
theorem walkStep_continue {w : Walk σ} {a bit : Nat} {p : Prefix} {data : Option α}
    {l r : PatriciaNode α} {above : List (Frame α)} {st' : σ} {freed : Bool}
    (located : locate a (tree w.st) [] = some ⟨node a bit (some p) data l r, above⟩)
    (ran : body w.st ⟨node a bit (some p) data l r, above⟩ = .ok (st', false))
    (keeps : Keeps (tree w.st) (tree st') a l r freed) (distinct : (tree st').addrs.Nodup)
    : walkStep tree body w a
      = .ok { ({ w with st := st' } : Walk σ).next l r with
                freedReads := (if freed then [a] else []) ++ w.freedReads } := by
  cases freed with
  | true =>
      have gone := locate_eq_none (keeps.gone rfl) []
      simp [walkStep, located, ran, gone, bind, Except.bind, pure, Except.pure]
  | false =>
      obtain ⟨bit', pfx', data', within⟩ := keeps.stays rfl
      obtain ⟨above', live⟩ := within.locate distinct []
      have log : (({ w with st := st' } : Walk σ).next l r).freedReads = w.freedReads := by simp
      simp only [walkStep, located, ran, live, bind, Except.bind, pure, Except.pure,
        Option.isSome_some, if_true, Bool.false_eq_true, if_false, List.nil_append]
      generalize ({ w with st := st' } : Walk σ).next l r = after at log ⊢
      rw [← log]

/-- One iteration of a walk at a pending node: the body fails there, or the walk goes on
with what is pending then.
-/
theorem Replays.step_pending (spec : Replays tree body Inv stops frees abs visit)
    {w : Walk σ} {n : PatriciaNode α} {rest : List (PatriciaNode α)} (inv : Inv w.st)
    (pending : Pending (tree w.st) w (n :: rest))
    : (∃ a z f, w.rn = some a ∧ walkStep tree body w a = .error f
          ∧ Visits w.st z tree ∧ z.node = n ∧ body w.st z = .error f)
      ∨ ∃ a w' todo, w.rn = some a
        ∧ walkStep tree body w a = .ok w'
        ∧ Inv w'.st
        ∧ Pending (tree w'.st) w' (todo ++ rest)
        ∧ preorder stops n = n :: todo.flatMap (preorder stops)
        ∧ (todo.map size).sum < n.size
        ∧ abs w'.st = visit (abs w.st) n
        ∧ w'.freedReads
            = (if frees n && !stops n then n.ptr.toList else []) ++ w.freedReads := by
  have within := pending.within n (by simp)
  cases n with
  | null => exact absurd rfl within.ne_null
  | node a bit pfx data l r =>
      obtain ⟨rn, stack⟩ : w.rn = some a ∧ w.stack.map some = rest.map ptr := by
        cases rn : w.rn with
        | none => cases pending.ends rn
        | some a' => simpa [rn, ptr] using pending.points
      obtain ⟨above, located⟩ := within.locate (spec.distinct _ inv) []
      have start : LocOk ⟨tree w.st, []⟩ := by
        obtain ⟨k, below, hk⟩ := (spec.wf _ inv).rooted within.tree_ne_null
        exact ⟨[], k, rfl, below, hk⟩
      obtain ⟨head, _⟩ := locate_some located
      cases pfx with
      | none =>
          obtain ⟨noStop, noFree, same⟩ := spec.bare a bit data l r
          refine Or.inr ⟨a, w.next l r, children l r, rn, ?_, ?_, ?_, ?_, ?_, ?_, ?_⟩
          · simp [walkStep, located, pure, Except.pure, bind, Except.bind]
          · simpa using inv
          · obtain ⟨points, ends⟩ := Walk.next_points l r stack
            rw [Walk.next_st]
            exact pending.next (Keeps.refl within) (fun _ h => h) pending.children_apart points ends
          · rw [children_flatMap _ rfl]
            simp [preorder, noStop]
          · rw [children_size]
            simp [size]
          · simp [same]
          · simp [noFree]
      | some p =>
          have visits : Visits w.st ⟨node a bit (some p) data l r, above⟩ tree :=
            ⟨head, locate_locOk located start, rfl⟩
          cases ran : body w.st ⟨node a bit (some p) data l r, above⟩ with
          | error f =>
              refine Or.inl ⟨a, _, f, rn, ?_, visits, rfl, ran⟩
              simp [walkStep, located, ran, bind, Except.bind]
          | ok result =>
              obtain ⟨st', broke⟩ := result
              obtain ⟨inv', broke_eq, abs_eq, keeps⟩ :=
                spec.step _ _ _ _ a bit (some p) data l r inv visits rfl ran
              right
              cases stop : stops (node a bit (some p) data l r) with
              | true =>
                  rw [stop] at broke_eq
                  subst broke_eq
                  refine ⟨a, ({ w with st := st' } : Walk σ).pop, [], rn,
                    ?_, ?_, ?_, ?_, ?_, ?_, ?_⟩
                  · simp [walkStep, located, ran, bind, Except.bind, pure, Except.pure]
                  · simpa using inv'
                  · obtain ⟨points, ends⟩ :=
                      Walk.pop_points (w := ({ w with st := st' } : Walk σ)) stack
                    rw [Walk.pop_st]
                    exact pending.next keeps (by simp) (by simp) points ends
                  · simp [preorder, stop]
                  · simp [size]
                  · simpa using abs_eq
                  · simp
              | false =>
                  rw [stop] at broke_eq
                  subst broke_eq
                  refine ⟨a, _, children l r, rn, walkStep_continue located ran keeps
                    (spec.distinct _ inv'), ?_, ?_, ?_, ?_, ?_, ?_⟩
                  · simpa using inv'
                  · obtain ⟨points, ends⟩ :=
                      Walk.next_points (w := ({ w with st := st' } : Walk σ)) l r stack
                    simp only [Walk.next_st]
                    exact pending.next keeps (fun _ h => h) pending.children_apart points ends
                  · rw [children_flatMap _ rfl]
                    simp [preorder, stop]
                  · rw [children_size]
                    simp [size]
                  · simpa using abs_eq
                  · simp [ptr]

/-- The nodes whose freed memory a walk over `visited` reads, the last one first. -/
def freedAmong (stops frees : PatriciaNode α → Bool) (visited : List (PatriciaNode α))
    : List Nat :=
  ((visited.filter (fun n => frees n && !stops n)).filterMap ptr).reverse

theorem freedAmong_cons (n : PatriciaNode α) (rest : List (PatriciaNode α))
    : freedAmong stops frees (n :: rest)
      = freedAmong stops frees rest ++ (if frees n && !stops n then n.ptr.toList else []) := by
  unfold freedAmong
  rw [List.filter_cons]
  split
  · cases n <;> simp [ptr, List.filterMap_cons]
  · simp

/-- From its pending nodes on, a walk with enough fuel replays them in preorder, unless
the body fails at one of them. By induction on the fuel; every iteration shortens what is
pending by at least one node.
-/
theorem Replays.pending (spec : Replays tree body Inv stops frees abs visit) {fuel : Nat}
    {w : Walk σ} {todo : List (PatriciaNode α)} (inv : Inv w.st)
    (pending : Pending (tree w.st) w todo) (enough : (todo.map size).sum < fuel)
    : (∃ st z f, patriciaWalk tree body fuel w = .error f
          ∧ Inv st ∧ Visits st z tree ∧ z.node ∈ todo.flatMap (preorder stops)
          ∧ body st z = .error f)
      ∨ ∃ w', patriciaWalk tree body fuel w = .ok w'
          ∧ Inv w'.st
          ∧ abs w'.st = (todo.flatMap (preorder stops)).foldl visit (abs w.st)
          ∧ w'.freedReads
              = freedAmong stops frees (todo.flatMap (preorder stops)) ++ w.freedReads := by
  induction fuel generalizing w todo with
  | zero => cases enough
  | succ fuel ih =>
      cases todo with
      | nil =>
          have rn : w.rn = none := by
            cases rn : w.rn with
            | none => rfl
            | some a => simpa [rn] using pending.points
          exact Or.inr ⟨w, by simp [patriciaWalk, rn], inv, rfl, rfl⟩
      | cons n rest =>
          have order : (n :: rest).flatMap (preorder stops)
              = preorder stops n ++ rest.flatMap (preorder stops) := by simp
          rcases spec.step_pending inv pending with ⟨a, z, f, rn, ran, visits, rfl, failed⟩
            | ⟨a, w₁, todo, rn, ran, inv₁, pending₁, below, smaller, abs₁, log₁⟩
          · refine Or.inl ⟨w.st, z, f, ?_, inv, visits, ?_, failed⟩
            · simp [patriciaWalk, rn, ran, bind, Except.bind]
            rw [order]
            exact List.mem_append_left _
              (mem_preorder_self (pending.within z.node (by simp)).ne_null)
          · rw [order, below]
            have left : ((todo ++ rest).map size).sum < fuel := by
              simp only [List.map_cons, List.sum_cons, List.map_append, List.sum_append]
                at enough ⊢
              omega
            rcases ih inv₁ pending₁ left with ⟨st, z, f, done, invz, visits, mem, failed⟩
              | ⟨w', done, inv', abs', log'⟩
            · refine Or.inl ⟨st, z, f, ?_, invz, visits, ?_, failed⟩
              · simp [patriciaWalk, rn, ran, done, bind, Except.bind]
              rw [List.flatMap_append] at mem
              simpa using Or.inr (List.mem_append.mp mem)
            · refine Or.inr ⟨w', ?_, inv', ?_, ?_⟩
              · simp [patriciaWalk, rn, ran, done, bind, Except.bind]
              · rw [abs', abs₁, List.flatMap_append]
                rfl
              · rw [log', log₁, List.flatMap_append]
                simp only [List.cons_append, freedAmong_cons, List.append_assoc]

/-- A whole walk replays the tree's nodes in preorder, unless the body fails at one. -/
theorem Replays.walkTree (spec : Replays tree body Inv stops frees abs visit) {st : σ}
    (inv : Inv st)
    : (∃ st' z f, Lixy.walkTree tree body st = .error f
          ∧ Inv st' ∧ Visits st' z tree ∧ z.node ∈ preorder stops (tree st)
          ∧ body st' z = .error f)
      ∨ ∃ w, Lixy.walkTree tree body st = .ok w
          ∧ Inv w.st
          ∧ abs w.st = (preorder stops (tree st)).foldl visit (abs st)
          ∧ w.freedReads = freedAmong stops frees (preorder stops (tree st)) := by
  have whole : Pending (tree st)
      { st, rn := (tree st).ptr, stack := [], freedReads := [] : Walk σ }
      (children (tree st) null) := by
    refine ⟨?_, ?_, ?_, ?_⟩
    · cases tree st <;> simp [children, isNull, ptr]
    · cases tree st <;> simp [children, isNull, ptr]
    · intro n hn
      obtain ⟨present, rfl | rfl⟩ := mem_children.mp hn
      · exact Within.self present
      · exact absurd rfl present
    · rw [children_flatMap _ addrs_null]
      simpa using spec.distinct _ inv
  have order : (children (tree st) null).flatMap (preorder stops) = preorder stops (tree st) := by
    rw [children_flatMap _ rfl]
    simp [preorder]
  have enough : ((children (tree st) null).map size).sum < (tree st).size + 1 := by
    rw [children_size]
    simp [size]
  have result := @Replays.pending _ _ _ _ _ _ _ _ _ _ spec _
    { st, rn := (tree st).ptr, stack := [], freedReads := [] } _ inv whole enough
  rw [order, List.append_nil] at result
  exact result

end Lixy
