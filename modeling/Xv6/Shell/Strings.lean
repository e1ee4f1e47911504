import Xv6.Shell.Correct

/-! # The Strings that `nulterminate` Leaves in the Buffer

    `nulterminate` overwrites the character behind each word of the tree, which
    may be an operator that the next word follows directly. Here the buffer is
    an array and the writes are made one after the other.

    - `terminate`: the writes, in the order of the source
    - `Span.Valid.apart`: no write falls on a character of a word
    - `parsecmd_strings`: what stands in the buffer afterwards
-/

namespace Xv6.Shell

/-- Where in the line a pointer points to. -/
def offset (line p : Ptr) : Nat := line.length - p.length

/-- `*eq = 0`. -/
def endWord (line : Ptr) (buf : List Char) (w : Span) : List Char :=
  buf.set (offset line w.eq) '\x00'

/-- `nulterminate` on the buffer that holds `line`. -/
def terminate (line : Ptr) : Cmd Span → List Char → List Char
  | .EXEC argv, buf => argv.foldl (endWord line) buf
  | .REDIR cmd file _ _, buf => endWord line (terminate line cmd buf) file
  | .PIPE left right, buf => terminate line right (terminate line left buf)
  | .LIST left right, buf => terminate line right (terminate line left buf)
  | .BACK cmd, buf => terminate line cmd buf

/-- The string at offset `i` is `text`, and a NUL ends it. -/
structure StringAt (buf : List Char) (i : Nat) (text : List Char) : Prop where
  chars : ∀ k, k < text.length → buf[i + k]? = text[k]?
  ended : buf[i + text.length]? = some '\x00'
  nonzero : '\x00' ∉ text

variable {line buf : List Char} {w w' : Span}

theorem terminate_eq (cmd : Cmd Span) : ∀ buf,
    terminate line cmd buf = cmd.words.foldl (endWord line) buf := by
  induction cmd with
  | EXEC argv => exact fun _ => rfl
  | REDIR cmd file _ _ ih =>
    intro buf
    rw [terminate, ih, Cmd.words, List.foldl_append]
    rfl
  | PIPE left right ihl ihr | LIST left right ihl ihr =>
    intro buf
    rw [terminate, ihl, ihr, Cmd.words, List.foldl_append]
  | BACK cmd ih => exact ih

theorem getElem_foldl_endWord (ws : List Span) (j : Nat) (buf : List Char) :
    (ws.foldl (endWord line) buf)[j]? =
      if j ∈ ws.map (fun w => offset line w.eq) then buf[j]?.map (fun _ => '\x00')
      else buf[j]? := by
  induction ws generalizing buf with
  | nil => rfl
  | cons w ws ih =>
    rw [List.foldl_cons, ih, endWord, List.map_cons]
    by_cases hj : offset line w.eq = j
    · rw [hj, if_pos List.mem_cons_self, List.getElem?_set_self']
      split
      · cases buf[j]? <;> rfl
      · rfl
    · have hmem : (j ∈ offset line w.eq :: ws.map (fun w => offset line w.eq)) ↔
          j ∈ ws.map (fun w => offset line w.eq) := by
        rw [List.mem_cons, or_iff_right (Ne.symm hj)]
      rw [List.getElem?_set_ne hj]
      simp only [hmem]

/-- Where a word stands in the line, and what is behind it. -/
structure Placed (line : Ptr) (w : Span) : Prop where
  length : offset line w.eq = offset line w.q + w.text.length
  bound : offset line w.eq ≤ line.length
  slice : w.text = (line.drop (offset line w.q)).take w.text.length
  chars : ∀ k, k < w.text.length → (line)[offset line w.q + k]? = w.text[k]?
  behind : ∀ c, (line)[offset line w.eq]? = some c → isWord c = false

theorem Span.Valid.placed (h : w.Valid line) : Placed line w := by
  obtain ⟨pre, hpre⟩ := h.suffix
  have hq : offset line w.q = pre.length := by
    rw [offset, ← hpre, List.length_append, Nat.add_sub_cancel]
  have hline : line = pre ++ (w.text ++ w.eq) := by rw [← h.split, hpre]
  have heq : offset line w.eq = pre.length + w.text.length := by
    have hlen := congrArg List.length hline
    rw [List.length_append, List.length_append] at hlen
    rw [offset]
    omega
  constructor
  · rw [heq, hq]
  · exact Nat.sub_le _ _
  · rw [hq, hline, List.drop_left, List.take_left]
  · intro k hk
    rw [hq, hline, List.getElem?_append_right (Nat.le_add_right _ _), Nat.add_sub_cancel_left,
      List.getElem?_append_left hk]
  · intro c hc
    rw [heq, hline, ← List.append_assoc, List.getElem?_append_right (by simp), List.length_append,
      Nat.sub_self] at hc
    obtain ⟨s, hs⟩ : ∃ s, w.eq = c :: s := by
      cases hw : w.eq with
      | nil =>
        rw [hw] at hc
        cases hc
      | cons d s =>
        rw [hw] at hc
        cases hc
        exact ⟨s, rfl⟩
    exact h.maximal c s hs

/-- The character behind a word belongs to no word. -/
theorem Span.Valid.apart (h : w.Valid line) (h' : w'.Valid line) :
    offset line w.eq < offset line w'.q ∨ offset line w'.eq ≤ offset line w.eq := by
  by_contra hin
  rw [not_or, Nat.not_lt, Nat.not_le] at hin
  obtain ⟨k, hk⟩ := Nat.exists_eq_add_of_le hin.1
  have hlt : k < w'.text.length := by
    have := h'.placed.length
    omega
  have hchar := h'.placed.chars k hlt
  rw [← hk, List.getElem?_eq_getElem hlt] at hchar
  have hword := h'.chars _ (List.getElem_mem hlt)
  rw [h.placed.behind _ hchar] at hword
  cases hword

/-- **The words of the line.** For every line that `parsecmd` accepts, the strings of
    the tree are what stands in the line between the two pointers. After
    `nulterminate` each of them stands in the buffer at its first pointer and is
    ended by a NUL. Every write is inside the line or on the NUL behind it, none is
    on a character of a word, and nothing else changes. -/
theorem parsecmd_strings {buf : List Char} {t : Cmd (List Char)} (hnul : '\x00' ∈ buf)
    (h : parsecmd buf = .ok t) :
    ∃ line cmd, buf.takeWhile (· ≠ '\x00') = line ∧ cmd.map Span.text = t ∧
      (∃ s, parseline (4 * line.length + 4) line = .ok (cmd, s)) ∧
      (∀ w ∈ cmd.words, StringAt (terminate line cmd buf) (offset line w.q) w.text ∧
        w.text = (line.drop (offset line w.q)).take (offset line w.eq - offset line w.q) ∧
        offset line w.eq ≤ line.length ∧
        ∀ w' ∈ cmd.words, offset line w.eq < offset line w'.q ∨ offset line w'.eq ≤ offset line w.eq) ∧
      ∀ j, (∀ w ∈ cmd.words, j ≠ offset line w.eq) → (terminate line cmd buf)[j]? = buf[j]? := by
  obtain ⟨cmd, s', hline, _, rfl⟩ := parsecmd_ok.mp h
  obtain ⟨ls, hr, _⟩ := (soundAt _).line hline
  obtain ⟨line, rest, rfl, hnone⟩ := List.eq_append_cons_of_mem hnul
  have htake : (line ++ '\x00' :: rest).takeWhile (· ≠ '\x00') = line := by
    rw [List.takeWhile_append_of_pos (fun c hc => by simpa using ne_of_mem_of_not_mem hc hnone)]
    simp
  rw [htake] at hline hr
  have hwrites : ∀ j, (terminate line cmd (line ++ '\x00' :: rest))[j]? = _ :=
    fun j => (congrArg (·[j]?) (terminate_eq cmd _)).trans (getElem_foldl_endWord cmd.words j _)
  refine ⟨line, cmd, htake, rfl, ⟨s', hline⟩, fun w hw => ?_, fun j hj => ?_⟩
  · have hv := hr.valid w hw
    have hp := hv.placed
    have hapart : ∀ w' ∈ cmd.words,
        offset line w.eq < offset line w'.q ∨ offset line w'.eq ≤ offset line w.eq :=
      fun w' hw' => hv.apart (hr.valid w' hw')
    refine ⟨⟨fun k hk => ?_, ?_, fun hm => ?_⟩, ?_, hp.bound, hapart⟩
    · -- no other word ends inside this one
      have hnot : offset line w.q + k ∉ cmd.words.map (fun v => offset line v.eq) := by
        intro hm
        obtain ⟨v, hv', heq⟩ := List.mem_map.mp hm
        have := (hr.valid v hv').apart hv
        have := hp.length
        omega
      have := hp.length
      have := hp.bound
      rw [hwrites, if_neg hnot, List.getElem?_append_left (by omega), hp.chars k hk]
    · rw [← hp.length, hwrites, if_pos (List.mem_map_of_mem hw)]
      have hlt : offset line w.eq < (line ++ '\x00' :: rest).length := by
        have := hp.bound
        rw [List.length_append, List.length_cons]
        omega
      rw [List.getElem?_eq_getElem hlt]
      rfl
    · have hq : '\x00' ∈ w.q := by
        rw [hv.split]
        exact List.mem_append_left _ hm
      exact hnone (hv.suffix.subset hq)
    · rw [hp.length, Nat.add_sub_cancel_left]
      exact hp.slice
  · rw [hwrites, if_neg]
    intro hm
    obtain ⟨v, hv, heq⟩ := List.mem_map.mp hm
    exact hj v hv heq.symm

/-- In `a>b` the NUL behind the first word overwrites the operator. -/
theorem parsecmd_strings_adjacent :
    ∃ line cmd, cmd.map Span.text = .REDIR (.EXEC [['a']]) ['b'] (O_WRONLY ||| O_CREATE) 1 ∧
      ∀ w ∈ cmd.words,
        StringAt (terminate line cmd ['a', '>', 'b', '\x00']) (offset line w.q) w.text := by
  have hok : parsecmd ['a', '>', 'b', '\x00'] =
      .ok (.REDIR (.EXEC [['a']]) ['b'] (O_WRONLY ||| O_CREATE) 1) := by decide +kernel
  obtain ⟨line, cmd, _, ht, _, hw, _⟩ := parsecmd_strings (by decide) hok
  exact ⟨line, cmd, ht, fun w hmem => (hw w hmem).1⟩

end Xv6.Shell
