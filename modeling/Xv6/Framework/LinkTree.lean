import Mathlib.Data.Finset.Card

/-! # Trees Given by Links

    A finite set of links between nodes; a link has a source, a key at the
    source and a destination. Some nodes are inner nodes, and an inner node
    knows the node `up` above it. `TreeInv` says that the links to inner nodes
    form a tree below the root; other nodes may have any number of links.
    The rules say how it is kept when links are added and removed, and how the
    numbers of links at a node change.
-/

namespace LinkTree

/-- A link. -/
structure Edge (V K : Type) where
  src : V
  key : K
  dst : V
  deriving DecidableEq

variable {V K : Type} {v : V}

/-! ### Reachable nodes -/

/-- The nodes that links lead to from the root. -/
inductive Reach (E : Finset (Edge V K)) (root : V) : V → Prop where
  | root : Reach E root root
  | link {e : Edge V K} : e ∈ E → Reach E root e.src → Reach E root e.dst

/-- What contains the root and the end of every link that starts in it. -/
theorem Reach.mem_of_closed {E : Finset (Edge V K)} {root : V} {S : V → Prop} (h : Reach E root v)
    (hroot : S root) (hclosed : ∀ e ∈ E, S e.src → S e.dst) : S v := by
  induction h with
  | root => exact hroot
  | link he _ ih => exact hclosed _ he ih

/-! ### Numbers of links -/

section degrees

variable [DecidableEq V] [DecidableEq K] {E : Finset (Edge V K)} {e : Edge V K}

/-- How many links lead to `v`. -/
def inDeg (E : Finset (Edge V K)) (v : V) : Nat :=
  (E.filter (fun e => e.dst = v)).card

/-- How many links lead from `v` to inner nodes. -/
def outDeg (E : Finset (Edge V K)) (D : V → Bool) (v : V) : Nat :=
  (E.filter (fun e => e.src = v ∧ D e.dst = true)).card

theorem card_filter_insert (p : Edge V K → Prop) [DecidablePred p] (he : e ∉ E) :
    ((insert e E).filter p).card = (E.filter p).card + if p e then 1 else 0 := by
  rw [Finset.filter_insert]
  split
  · exact Finset.card_insert_of_notMem (fun hmem => he (Finset.mem_of_mem_filter e hmem))
  · rfl

theorem card_filter_erase (p : Edge V K → Prop) [DecidablePred p] (he : e ∈ E) :
    ((E.erase e).filter p).card + (if p e then 1 else 0) = (E.filter p).card := by
  have h := card_filter_insert p (Finset.notMem_erase e E)
  rw [Finset.insert_erase he] at h
  exact h.symm

theorem inDeg_insert (he : e ∉ E) (v : V) :
    inDeg (insert e E) v = inDeg E v + if e.dst = v then 1 else 0 :=
  card_filter_insert _ he

theorem inDeg_erase (he : e ∈ E) (v : V) :
    inDeg (E.erase e) v + (if e.dst = v then 1 else 0) = inDeg E v :=
  card_filter_erase _ he

theorem outDeg_insert (D : V → Bool) (he : e ∉ E) (v : V) :
    outDeg (insert e E) D v = outDeg E D v + if e.src = v ∧ D e.dst = true then 1 else 0 :=
  card_filter_insert _ he

theorem outDeg_erase (D : V → Bool) (he : e ∈ E) (v : V) :
    outDeg (E.erase e) D v + (if e.src = v ∧ D e.dst = true then 1 else 0) = outDeg E D v :=
  card_filter_erase _ he

omit [DecidableEq K]

theorem inDeg_eq_zero : inDeg E v = 0 ↔ ∀ e ∈ E, e.dst ≠ v := by
  rw [inDeg, Finset.card_eq_zero, Finset.filter_eq_empty_iff]

theorem outDeg_eq_zero {D : V → Bool} : outDeg E D v = 0 ↔ ∀ e ∈ E, e.src = v → D e.dst ≠ true := by
  rw [outDeg, Finset.card_eq_zero, Finset.filter_eq_empty_iff]
  constructor
  · intro h e he hsrc hD
    exact h he ⟨hsrc, hD⟩
  · intro h e he hboth
    exact h e he hboth.1 hboth.2

/-- The number of links to inner nodes depends on which of the destinations are
    inner nodes. -/
theorem outDeg_congr {D D' : V → Bool} (h : ∀ e ∈ E, D' e.dst = D e.dst) :
    outDeg E D' v = outDeg E D v := by
  unfold outDeg
  refine congrArg Finset.card (Finset.filter_congr (fun e he => ?_))
  rw [h e he]

theorem inDeg_mono {E' : Finset (Edge V K)} (h : E' ⊆ E) (v : V) : inDeg E' v ≤ inDeg E v :=
  Finset.card_le_card (Finset.filter_subset_filter _ h)

theorem outDeg_mono {E' : Finset (Edge V K)} (D : V → Bool) (h : E' ⊆ E) (v : V) :
    outDeg E' D v ≤ outDeg E D v :=
  Finset.card_le_card (Finset.filter_subset_filter _ h)

end degrees

/-! ### Trees -/

/-- The inner nodes `D` form a tree, except that a node may be cut off from
    the root. -/
structure TreeInv (E : Finset (Edge V K)) (D : V → Bool) (up : V → V) (root : V) : Prop where
  parent : ∀ e ∈ E, D e.dst = true → up e.dst = e.src
  unique : ∀ e ∈ E, ∀ e' ∈ E, D e.dst = true → e.dst = e'.dst → e = e'
  rank : ∃ r : V → Nat, ∀ e ∈ E, D e.dst = true → r e.src < r e.dst
  noRoot : ∀ e ∈ E, e.dst ≠ root
  inner : ∀ e ∈ E, D e.src = true

namespace TreeInv

variable {E E' : Finset (Edge V K)} {D D' : V → Bool} {up up' : V → V} {root : V}

/-- Links are removed, and nodes without links change. -/
theorem mono (h : TreeInv E D up root) (hsub : E' ⊆ E)
    (hdst : ∀ e ∈ E', D' e.dst = true → D e.dst = true ∧ up' e.dst = up e.dst)
    (hsrc : ∀ e ∈ E', D' e.src = true) : TreeInv E' D' up' root := by
  obtain ⟨r, hr⟩ := h.rank
  refine ⟨fun e he hD => ?_, fun e he e' he' hD heq => ?_, ⟨r, fun e he hD => ?_⟩,
    fun e he => h.noRoot e (hsub he), hsrc⟩
  · rw [(hdst e he hD).2]
    exact h.parent e (hsub he) (hdst e he hD).1
  · exact h.unique e (hsub he) e' (hsub he') (hdst e he hD).1 heq
  · exact hr e (hsub he) (hdst e he hD).1

variable [DecidableEq V] [DecidableEq K] {e : Edge V K}

variable (h : TreeInv E D up root)

include h

/-- A link to a node that is not an inner node. -/
theorem addLink (hdst : D e.dst = false) (hroot : e.dst ≠ root) (hsrc : D e.src = true) :
    TreeInv (insert e E) D up root := by
  obtain ⟨r, hr⟩ := h.rank
  have hold : ∀ e' ∈ insert e E, D e'.dst = true → e' ∈ E := by
    intro e' he' hD
    rcases Finset.mem_insert.mp he' with rfl | hmem
    · rw [hdst] at hD
      cases hD
    · exact hmem
  refine ⟨fun e' he' hD => h.parent e' (hold e' he' hD) hD, fun e' he' e'' he'' hD heq => ?_,
    ⟨r, fun e' he' hD => hr e' (hold e' he' hD) hD⟩, fun e' he' => ?_, fun e' he' => ?_⟩
  · have hD'' : D e''.dst = true := by rw [← heq]; exact hD
    exact h.unique e' (hold e' he' hD) e'' (hold e'' he'' hD'') hD heq
  · rcases Finset.mem_insert.mp he' with rfl | hmem
    · exact hroot
    · exact h.noRoot e' hmem
  · rcases Finset.mem_insert.mp he' with rfl | hmem
    · exact hsrc
    · exact h.inner e' hmem

/-- A new inner node, with the first link to it. -/
theorem addLeaf (hin : ∀ e' ∈ E, e'.dst ≠ e.dst) (hout : ∀ e' ∈ E, e'.src ≠ e.dst)
    (hup : up e.dst = e.src) (hne : e.src ≠ e.dst) (hroot : e.dst ≠ root) (hsrc : D e.src = true) :
    TreeInv (insert e E) D up root := by
  obtain ⟨r, hr⟩ := h.rank
  refine ⟨fun e' he' hD => ?_, fun e' he' e'' he'' hD heq => ?_,
    ⟨Function.update r e.dst (r e.src + 1), fun e' he' hD => ?_⟩, fun e' he' => ?_,
    fun e' he' => ?_⟩
  · rcases Finset.mem_insert.mp he' with rfl | hmem
    · exact hup
    · exact h.parent e' hmem hD
  · rcases Finset.mem_insert.mp he' with rfl | hmem
    · rcases Finset.mem_insert.mp he'' with rfl | hmem'
      · rfl
      · exact absurd heq.symm (hin e'' hmem')
    · rcases Finset.mem_insert.mp he'' with rfl | hmem'
      · exact absurd heq (hin e' hmem)
      · exact h.unique e' hmem e'' hmem' hD heq
  · -- the new node gets the rank after its parent's, and no link starts at it
    rcases Finset.mem_insert.mp he' with rfl | hmem
    · rw [Function.update_self, Function.update_of_ne hne]
      exact Nat.lt_succ_self _
    · rw [Function.update_of_ne (hout e' hmem), Function.update_of_ne (hin e' hmem)]
      exact hr e' hmem hD
  · rcases Finset.mem_insert.mp he' with rfl | hmem
    · exact hroot
    · exact h.noRoot e' hmem
  · rcases Finset.mem_insert.mp he' with rfl | hmem
    · exact hsrc
    · exact h.inner e' hmem

omit [DecidableEq V] [DecidableEq K]

/-- Links to inner nodes do not lead round in a circle. -/
theorem no_cycle (v : V) :
    ¬ Relation.TransGen (fun u w => ∃ e ∈ E, e.src = u ∧ e.dst = w ∧ D w = true) v v := by
  obtain ⟨r, hr⟩ := h.rank
  have hlt : ∀ {u w}, Relation.TransGen
      (fun u w => ∃ e ∈ E, e.src = u ∧ e.dst = w ∧ D w = true) u w → r u < r w := by
    intro u w huw
    induction huw with
    | single hstep =>
      obtain ⟨e, he, rfl, rfl, hD⟩ := hstep
      exact hr e he hD
    | tail _ hstep ih =>
      obtain ⟨e, he, rfl, rfl, hD⟩ := hstep
      exact ih.trans (hr e he hD)
  intro hcycle
  exact Nat.lt_irrefl _ (hlt hcycle)

/-- A reachable inner node below the root has exactly one link to it, from the
    node above. -/
theorem exists_unique_link (hv : Reach E root v) (hD : D v = true) (hroot : v ≠ root) :
    ∃ e ∈ E, e.dst = v ∧ e.src = up v ∧ Reach E root e.src ∧ ∀ e' ∈ E, e'.dst = v → e' = e := by
  cases hv with
  | root => exact absurd rfl hroot
  | @link e he hsrc =>
    exact ⟨e, he, rfl, (h.parent e he hD).symm, hsrc,
      fun e' he' heq => (h.unique e he e' he' hD heq.symm).symm⟩

/-- Where every node that links start at has a link to it, all links start at
    reachable nodes. -/
theorem reach_of_linked (hlinked : ∀ e ∈ E, e.src = root ∨ ∃ e' ∈ E, e'.dst = e.src) :
    ∀ e ∈ E, Reach E root e.src := by
  obtain ⟨r, hr⟩ := h.rank
  -- by induction on the rank of the source
  have hmain : ∀ n, ∀ e ∈ E, r e.src = n → Reach E root e.src := by
    intro n
    induction n using Nat.strong_induction_on with
    | h n ih =>
      intro e he hn
      rcases hlinked e he with hroot | ⟨e', he', heq⟩
      · rw [hroot]
        exact Reach.root
      · have hlt := hr e' he' (by rw [heq]; exact h.inner e he)
        rw [heq, hn] at hlt
        rw [← heq]
        exact Reach.link he' (ih _ hlt e' he' rfl)
  exact fun e he => hmain _ e he rfl

end TreeInv

end LinkTree
