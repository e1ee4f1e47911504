import Mathlib.Data.Fintype.Card

/-! # Singly Linked Queues

    A queue of nodes linked through `next`, with a pointer to the first. A
    node is appended through a pointer to a link: the loop

        for(pp = &head; *pp; pp = &(*pp)->next) ;

    ends at the link that is null, and the node is stored there.

    `IsList q l` says that the links lead through the nodes `l`. The loop
    ends on every such queue, and storing through the link it ends at
    appends.
-/

namespace Linked

universe u

variable {α : Type u}

/-- The pointer to the first node, and the link of each node. -/
structure Queue (α : Type u) where
  head : Option α
  next : α → Option α

/-- A link: the pointer to the first node, or the link of a node. -/
inductive Loc (α : Type u) where
  | head
  | next (a : α)

/-- `*pp`. -/
def Queue.read (q : Queue α) : Loc α → Option α
  | .head => q.head
  | .next a => q.next a

/-- `*pp = v`. -/
def Queue.write [DecidableEq α] (q : Queue α) (v : Option α) : Loc α → Queue α
  | .head => { q with head := v }
  | .next a => { q with next := Function.update q.next a v }

/-- `for(; *pp; pp = &(*pp)->next) ;` for at most `fuel` turns; `none` when
    the fuel runs out. -/
def Queue.findEnd (q : Queue α) : (fuel : Nat) → Loc α → Option (Loc α)
  | 0, _ => none
  | fuel + 1, pp =>
    match q.read pp with
    | none => some pp
    | some a => q.findEnd fuel (.next a)

/-- Following the links from `h` leads through `l` and ends. -/
def Path (next : α → Option α) : (h : Option α) → (l : List α) → Prop
  | h, [] => h = none
  | h, a :: l => h = some a ∧ Path next (next a) l

/-- The queue consists of the nodes `l`, in this order. -/
def IsList (q : Queue α) (l : List α) : Prop := Path q.next q.head l

/-- The link that is null in a queue of the nodes `l`, seen from `pp`. -/
def lastLoc (pp : Loc α) : (l : List α) → Loc α
  | [] => pp
  | a :: l => lastLoc (.next a) l

variable {q : Queue α} {l : List α}

/-- The links of other nodes do not matter. -/
theorem Path.congr {next next' : α → Option α} : ∀ {l : List α} {h : Option α},
    Path next h l → (∀ a ∈ l, next' a = next a) → Path next' h l
  | [], _, hp, _ => hp
  | a :: l, _, hp, hsame => by
    refine ⟨hp.1, ?_⟩
    rw [hsame a List.mem_cons_self]
    exact hp.2.congr (fun b hb => hsame b (List.mem_cons_of_mem _ hb))

/-- The pointer to the first node. -/
theorem IsList.head_eq (h : IsList q l) : q.head = l.head? := by
  cases l with
  | nil => exact h
  | cons a l => exact h.1

/-- The loop of the append stops at the null link. -/
theorem findEnd_eq : ∀ {l : List α} {pp : Loc α} {fuel : Nat},
    Path q.next (q.read pp) l → l.length < fuel → q.findEnd fuel pp = some (lastLoc pp l)
  | _, _, 0, _, hfuel => absurd hfuel (Nat.not_lt_zero _)
  | [], pp, fuel + 1, hp, _ => by
    have hnone : q.read pp = none := hp
    simp [Queue.findEnd, hnone, lastLoc]
  | a :: l, pp, fuel + 1, hp, hfuel => by
    have hread : Path q.next (q.read (.next a)) l := hp.2
    have ih := findEnd_eq hread (Nat.lt_of_succ_lt_succ hfuel)
    simp only [Queue.findEnd, hp.1, lastLoc]
    exact ih

theorem lastLoc_concat (a : α) : ∀ (l : List α) (pp : Loc α), lastLoc pp (l ++ [a]) = .next a
  | [], _ => rfl
  | b :: l, _ => lastLoc_concat a l (.next b)

section append
variable [DecidableEq α]

/-- A node linked in behind the last one. -/
theorem Path.append {next : α → Option α} {a b : α} (hb : next b = none) : ∀ {l : List α}
    {h : Option α}, Path next h (l ++ [a]) → a ∉ l → b ∉ l ++ [a] →
    Path (Function.update next a (some b)) h (l ++ [a] ++ [b])
  | [], _, hp, _, hba => by
    have hne : b ≠ a := fun heq => hba (by simp [heq])
    refine ⟨hp.1, Function.update_self .., ?_⟩
    rw [Function.update_of_ne hne]
    exact hb
  | c :: l, _, hp, ha, hba => by
    have hne : c ≠ a := fun heq => ha (by simp [heq])
    refine ⟨hp.1, ?_⟩
    rw [Function.update_of_ne hne]
    exact Path.append hb hp.2 (fun hmem => ha (List.mem_cons_of_mem _ hmem))
      (fun hmem => hba (List.mem_cons_of_mem _ hmem))

/-- Storing a node through the link at which the loop ends appends it. -/
theorem IsList.append (h : IsList q l) (hnd : l.Nodup) {b : α} (hb : b ∉ l)
    (hnext : q.next b = none) : IsList (q.write (some b) (lastLoc .head l)) (l ++ [b]) := by
  rcases List.eq_nil_or_concat l with hnil | ⟨l', a, hl⟩
  · rw [hnil]
    exact ⟨rfl, hnext⟩
  · rw [List.concat_eq_append] at hl
    rw [hl] at h hnd hb ⊢
    have ha : a ∉ l' := by
      rw [List.nodup_append] at hnd
      intro hmem
      exact hnd.2.2 a hmem a (by simp) rfl
    rw [lastLoc_concat]
    exact Path.append hnext h ha hb

end append

/-- The first node leaves the queue. -/
theorem IsList.tail {a : α} (h : IsList q (a :: l)) : IsList { q with head := q.next a } l := h.2

/-- On a queue without repetition the loop ends after as many turns as
    there are nodes. -/
theorem IsList.findEnd [Fintype α] (h : IsList q l) (hnd : l.Nodup) :
    q.findEnd (Fintype.card α + 1) .head = some (lastLoc .head l) := by
  classical
  have hlen : l.length ≤ Fintype.card α := List.Nodup.length_le_card hnd
  exact findEnd_eq h (by omega)

end Linked
