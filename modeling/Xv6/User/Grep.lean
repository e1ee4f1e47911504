import Xv6.User.Match

/-! # `grep`

    The function `grep` of `grep.c`. What is in `buf` is the list of the bytes
    before the zero that follows them; the standard output is what is written to
    it. The input arrives in pieces, and a `read` returns at most the first of
    them.

    - `grep`: for each `read`, what it returned and what was written then
    - `matching`: the lines that are to be written
    - `grep_output`: they are written, if no part of a line arrives without the
      end of another
-/

namespace Xv6.User

/-- `'\n'` -/
def newline : Byte := 10

/-- `sizeof(buf)` -/
def bufSize : Nat := 1024

/-- `read(fd, p, n)`: the bytes that it returns, and what is still to come. -/
def read (n : Nat) : List (List Byte) → List Byte × List (List Byte)
  | [] => ([], [])
  | piece :: pieces =>
    if piece.length ≤ n then (piece, pieces) else (piece.take n, piece.drop n :: pieces)

/-- `strchr`, as the distance from the beginning of the string. -/
def strchr (c : Byte) : List Byte → Option Nat
  | [] => none
  | b :: s => if b = 0 then none else if b = c then some 0 else (strchr c s).map (· + 1)

theorem strchr_lt {c : Byte} {s : List Byte} {k : Nat} (h : strchr c s = some k) : k < s.length := by
  induction s generalizing k with
  | nil => cases h
  | cons b s ih =>
    unfold strchr at h
    split at h
    · cases h
    · split at h
      · cases h
        exact Nat.succ_pos _
      · obtain ⟨j, hj, rfl⟩ := Option.map_eq_some_iff.mp h
        exact Nat.succ_lt_succ (ih hj)

/-- The inner loop, from `p` on: what it writes, and what is behind the last newline. -/
def scanLines (pattern p : List Byte) : List Byte × List Byte :=
  match _h : strchr newline p with
  | none => ([], p)
  | some k =>
    let line := p.take k
    let r := scanLines pattern (p.drop (k + 1))
    ((if matchRe pattern line then line ++ [newline] else []) ++ r.1, r.2)
termination_by p.length
decreasing_by
  have := strchr_lt (by assumption)
  rw [List.length_drop]
  omega

theorem read_flatten (n : Nat) (pieces : List (List Byte)) :
    (read n pieces).1 ++ (read n pieces).2.flatten = pieces.flatten := by
  cases pieces with
  | nil => rfl
  | cons piece pieces =>
    rw [read]
    split
    · rfl
    · rw [List.flatten_cons, List.flatten_cons, ← List.append_assoc, List.take_append_drop]

/-- The outer loop: what each `read` returns, and what is written after it. -/
def grepLoop (pattern buf : List Byte) (pieces : List (List Byte)) :
    List (List Byte × List Byte) :=
  let input := read (bufSize - buf.length - 1) pieces
  if _h : input.1 = [] then []
  else
    let r := scanLines pattern (buf ++ input.1)
    -- when `p == buf`, no line ended and the buffer is forgotten
    let rest := if r.2.length = (buf ++ input.1).length then [] else r.2
    (input.1, r.1) :: grepLoop pattern rest input.2
termination_by pieces.flatten.length
decreasing_by
  have hlen : input.1.length + input.2.flatten.length = pieces.flatten.length := by
    rw [← List.length_append, read_flatten]
  rw [← hlen]
  exact Nat.lt_add_of_pos_left (List.length_pos_iff.mpr _h)

def grep (pattern : List Byte) (pieces : List (List Byte)) : List (List Byte × List Byte) :=
  grepLoop pattern [] pieces

/-- What the calls of `read` returned. -/
def reads (t : List (List Byte × List Byte)) : List (List Byte) := t.map Prod.fst

/-- The standard output. -/
def output (t : List (List Byte × List Byte)) : List Byte := (t.map Prod.snd).flatten

/-! ### Lines -/

/-- The lines of a text. The last one is not terminated by a newline. -/
def lines (s : List Byte) : List (List Byte) := s.splitOnP (· == newline)

/-- The terminated lines that match. -/
def matching (pattern s : List Byte) : List Byte :=
  ((lines s).dropLast.filter (fun l => matchRe pattern l)).flatMap (· ++ [newline])

section lines

variable {pattern l s t : List Byte}

theorem ne_newline (h : newline ∉ s) : ∀ x ∈ s, (x == newline) = false := by
  intro x hx
  rw [beq_eq_false_iff_ne]
  rintro rfl
  exact h hx

theorem lines_of_notMem (h : newline ∉ s) : lines s = [s] :=
  List.splitOnP_eq_singleton (ne_newline h)

theorem lines_append (h : newline ∉ l) (s : List Byte) :
    lines (l ++ newline :: s) = l :: lines s :=
  List.splitOnP_append_cons_of_forall_mem (ne_newline h) newline (beq_self_eq_true _) s

/-- The induction over the lines of a text. -/
theorem lines_induction {P : List Byte → Prop} (last : ∀ s, newline ∉ s → P s)
    (line : ∀ l s, newline ∉ l → P s → P (l ++ newline :: s)) (s : List Byte) : P s := by
  induction hn : s.length using Nat.strong_induction_on generalizing s with
  | _ n ih =>
    by_cases h : newline ∈ s
    · obtain ⟨l, rest, rfl, hl⟩ := List.eq_append_cons_of_mem h
      refine line l rest hl (ih rest.length ?_ rest rfl)
      rw [← hn, List.length_append, List.length_cons]
      omega
    · exact last s h

theorem matching_of_notMem (h : newline ∉ s) : matching pattern s = [] := by
  unfold matching
  rw [lines_of_notMem h]
  rfl

theorem matching_append (h : newline ∉ l) (s : List Byte) :
    matching pattern (l ++ newline :: s) =
      (if matchRe pattern l then l ++ [newline] else []) ++ matching pattern s := by
  have hne : lines s ≠ [] := List.splitOnP_ne_nil _ s
  unfold matching
  rw [lines_append h, List.dropLast_cons_of_ne_nil hne, List.filter_cons]
  split
  · rfl
  · rfl

/-- A part of a line is not longer than the line, whether it is the beginning or
    the rest. -/
theorem part_le_line (h : newline ∉ t) (s : List Byte) :
    (∃ l ∈ lines (t ++ s), t.length ≤ l.length) ∧
      ∀ r ∈ lines s, ∃ l ∈ lines (t ++ s), r.length ≤ l.length := by
  by_cases hs : newline ∈ s
  · obtain ⟨l, rest, rfl, hl⟩ := List.eq_append_cons_of_mem hs
    rw [← List.append_assoc, lines_append (by simp [h, hl]), lines_append hl]
    refine ⟨⟨t ++ l, List.mem_cons_self, by simp⟩, fun r hr => ?_⟩
    rcases List.mem_cons.mp hr with rfl | hr
    · exact ⟨t ++ r, List.mem_cons_self, by simp⟩
    · exact ⟨r, List.mem_cons_of_mem _ hr, le_rfl⟩
  · rw [lines_of_notMem hs, lines_of_notMem (by simp [h, hs])]
    refine ⟨⟨t ++ s, List.mem_singleton_self _, by simp⟩, fun r hr => ?_⟩
    rw [List.mem_singleton.mp hr]
    exact ⟨t ++ s, List.mem_singleton_self _, by simp⟩

/-! ### The inner loop -/

theorem strchr_of_notMem (h : newline ∉ s) : strchr newline s = none := by
  induction s with
  | nil => rfl
  | cons b s ih =>
    rw [List.mem_cons, not_or] at h
    rw [strchr, ih h.2, if_neg (Ne.symm h.1)]
    simp

theorem strchr_append (h0 : 0 ∉ l) (h : newline ∉ l) (s : List Byte) :
    strchr newline (l ++ newline :: s) = some l.length := by
  induction l with
  | nil => rfl
  | cons b l ih =>
    rw [List.mem_cons, not_or] at h0 h
    rw [List.cons_append, strchr, if_neg (Ne.symm h0.1), if_neg (Ne.symm h.1), ih h0.2 h.2]
    rfl

theorem scanLines_of_notMem (h : newline ∉ s) : scanLines pattern s = ([], s) := by
  rw [scanLines]
  split
  · rfl
  · next hk =>
    rw [strchr_of_notMem h] at hk
    cases hk

theorem scanLines_append (h0 : 0 ∉ l) (h : newline ∉ l) (s : List Byte) :
    scanLines pattern (l ++ newline :: s) =
      ((if matchRe pattern l then l ++ [newline] else []) ++ (scanLines pattern s).1,
        (scanLines pattern s).2) := by
  rw [scanLines]
  split
  · next hk =>
    rw [strchr_append h0 h] at hk
    cases hk
  · next hk =>
    rw [strchr_append h0 h] at hk
    cases hk
    have hdrop : (l ++ newline :: s).drop (l.length + 1) = s := by
      rw [← List.drop_drop, List.drop_left]
      rfl
    dsimp only
    rw [List.take_left, hdrop]

/-- What the inner loop does with the text `s`, whatever comes behind it. -/
structure Scanned (pattern s : List Byte) : Prop where
  suffix : (scanLines pattern s).2 <:+ s
  unfinished : newline ∉ (scanLines pattern s).2
  whole : (scanLines pattern s).2.length = s.length ↔ newline ∉ s
  matching : ∀ rest, matching pattern (s ++ rest) =
    (scanLines pattern s).1 ++ matching pattern ((scanLines pattern s).2 ++ rest)
  lines : ∀ rest, lines ((scanLines pattern s).2 ++ rest) ⊆ lines (s ++ rest)

theorem scanned (s : List Byte) : 0 ∉ s → Scanned pattern s := by
  induction s using lines_induction with
  | last s h =>
    have hscan : scanLines pattern s = ([], s) := scanLines_of_notMem h
    intro _
    constructor
    · rw [hscan]
    · rwa [hscan]
    · rw [hscan]
      exact iff_of_true rfl h
    · intro rest
      rw [hscan]
      rfl
    · intro rest
      rw [hscan]
      exact List.Subset.refl _
  | line l s h ih =>
    intro h0
    have h0l : 0 ∉ l := fun hm => h0 (List.mem_append_left _ hm)
    have hs := ih (fun hm => h0 (List.mem_append_right _ (List.mem_cons_of_mem _ hm)))
    have hscan : scanLines pattern (l ++ newline :: s) = _ := scanLines_append h0l h s
    have hlen := hs.suffix.length_le
    constructor
    · rw [hscan]
      exact hs.suffix.trans ((List.suffix_cons newline s).trans (List.suffix_append l _))
    · rw [hscan]
      exact hs.unfinished
    · rw [hscan, List.length_append, List.length_cons]
      exact iff_of_false (by dsimp only; omega) (by simp)
    · intro rest
      rw [hscan, List.append_assoc, List.cons_append, matching_append h, hs.matching rest,
        List.append_assoc]
    · intro rest
      rw [hscan, List.append_assoc, List.cons_append, lines_append h]
      exact List.Subset.trans (hs.lines rest) (List.subset_cons_self _ _)

/-! ### The outer loop -/

/-- A `read` into a buffer that is not full takes something from the first piece. -/
theorem read_ne_nil {n : Nat} {piece : List Byte} {pieces : List (List Byte)} (hn : 0 < n)
    (hne : [] ∉ piece :: pieces) :
    (read n (piece :: pieces)).1 ≠ [] ∧ [] ∉ (read n (piece :: pieces)).2 := by
  rw [List.mem_cons, not_or] at hne
  have hpos := List.length_pos_iff.mpr (Ne.symm hne.1)
  rw [read]
  split
  · exact ⟨Ne.symm hne.1, hne.2⟩
  · refine ⟨List.length_pos_iff.mp ?_, ?_⟩
    · rw [List.length_take]
      omega
    · rw [List.mem_cons, not_or]
      refine ⟨Ne.symm (List.length_pos_iff.mp ?_), hne.2⟩
      rw [List.length_drop]
      omega

/-- If one of the calls of `read` does not return the end of a line, no later one does. -/
def LinesArrive (t : List (List Byte × List Byte)) : Prop :=
  (reads t).Pairwise (fun got later => newline ∈ later → newline ∈ got)

theorem grepLoop_eq {buf got : List Byte} {pieces rest : List (List Byte)}
    (hread : read (bufSize - buf.length - 1) pieces = (got, rest)) (hgot : got ≠ []) :
    grepLoop pattern buf pieces = (got, (scanLines pattern (buf ++ got)).1) ::
      grepLoop pattern (if (scanLines pattern (buf ++ got)).2.length = (buf ++ got).length then []
        else (scanLines pattern (buf ++ got)).2) rest := by
  rw [grepLoop, hread, dif_neg hgot]

theorem grepLoop_spec (buf : List Byte) (pieces : List (List Byte)) (hbuf : newline ∉ buf)
    (hne : [] ∉ pieces) (h0 : 0 ∉ buf ++ pieces.flatten)
    (hshort : ∀ l ∈ lines (buf ++ pieces.flatten), l.length + 1 < bufSize)
    (harrive : LinesArrive (grepLoop pattern buf pieces)) :
    (reads (grepLoop pattern buf pieces)).flatten = pieces.flatten ∧
      output (grepLoop pattern buf pieces) = matching pattern (buf ++ pieces.flatten) := by
  induction hn : pieces.flatten.length using Nat.strong_induction_on generalizing buf pieces with
  | _ n ih =>
    obtain ⟨l, hl, hle⟩ := (part_le_line hbuf pieces.flatten).1
    have hroom : 0 < bufSize - buf.length - 1 := by
      have := hshort l hl
      omega
    cases pieces with
    | nil =>
      rw [grepLoop]
      exact ⟨rfl, (matching_of_notMem (by simpa using hbuf)).symm⟩
    | cons piece pieces =>
      obtain ⟨hgot, hrest⟩ := read_ne_nil hroom hne
      have hflat := read_flatten (bufSize - buf.length - 1) (piece :: pieces)
      obtain ⟨got, rest, hread⟩ : ∃ got rest,
        read (bufSize - buf.length - 1) (piece :: pieces) = (got, rest) := ⟨_, _, rfl⟩
      rw [hread] at hgot hrest hflat
      rw [grepLoop_eq hread hgot] at harrive ⊢
      have hlt : rest.flatten.length < n := by
        rw [← hn, ← hflat, List.length_append]
        exact Nat.lt_add_of_pos_left (List.length_pos_iff.mpr hgot)
      rw [← hflat, ← List.append_assoc] at h0 hshort
      rw [← hflat, ← List.append_assoc]
      rw [List.mem_append, not_or] at h0
      have hs : Scanned pattern (buf ++ got) := scanned _ h0.1
      obtain ⟨hhead, htail⟩ := List.pairwise_cons.mp harrive
      by_cases hnl : newline ∈ got
      · -- what is behind the last newline is kept
        rw [if_neg (fun heq => hs.whole.mp heq (List.mem_append_right _ hnl))] at htail ⊢
        obtain ⟨hreads, hout⟩ := ih _ hlt _ rest hs.unfinished hrest
          (by rw [List.mem_append, not_or]; exact ⟨fun hm => h0.1 (hs.suffix.subset hm), h0.2⟩)
          (fun l hl => hshort l (hs.lines _ hl)) htail rfl
        refine ⟨congrArg (got ++ ·) hreads, ?_⟩
        rw [hs.matching, ← hout]
        rfl
      · -- the beginning of a line is lost, but the line never ends
        have hnone : newline ∉ buf ++ got := by simp [hbuf, hnl]
        rw [if_pos (hs.whole.mpr hnone)] at htail hhead ⊢
        obtain ⟨hreads, hout⟩ := ih _ hlt [] rest List.not_mem_nil hrest h0.2
          (fun r hr => by
            obtain ⟨l, hl, hrl⟩ := (part_le_line hnone rest.flatten).2 r hr
            have := hshort l hl
            omega) htail rfl
        have hend : newline ∉ rest.flatten := by
          rw [← hreads, List.mem_flatten]
          rintro ⟨later, hlater, hmem⟩
          exact hnl (hhead later hlater hmem)
        refine ⟨congrArg (got ++ ·) hreads, ?_⟩
        rw [matching_of_notMem (by simp [hbuf, hnl, hend])]
        show (scanLines pattern (buf ++ got)).1 ++ output _ = []
        rw [hout, scanLines_of_notMem hnone, matching_of_notMem (by simpa using hend)]
        rfl

end lines

instance (t : List (List Byte × List Byte)) : Decidable (LinesArrive t) :=
  inferInstanceAs (Decidable (List.Pairwise _ _))

end Xv6.User
