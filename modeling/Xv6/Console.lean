import Xv6.Params
import Xv6.Framework.System
import Xv6.Framework.Ring

/-! # Console input (`console.c`)

    `consoleintr` edits the current line at the end of a ring of characters
    and commits it with a newline, with `^D`, or when the ring is full;
    `consoleread` copies committed characters out. Three `uint` indices
    `r`, `w` and `e` are never reduced modulo the size of the ring: from
    `r` to `w` are the characters committed and not yet read, from `w` to
    `e` the line being edited.

    Both functions hold `cons.lock`, and `consoleread` gives it up only in
    `sleep`, so the atomic steps are one call of `consoleintr` and one
    segment of a `consoleread`, up to its next `sleep` or its return. A
    sleeping read may resume at any time, which covers the `wakeup` of
    `consoleintr` and the one of `kill`.
-/

open LTS Ring

namespace Xv6.Console

/-! ### The input buffer -/

def INPUT_BUF : Nat := 128

instance : NeZero INPUT_BUF := ⟨by decide⟩

theorem input_buf_dvd : INPUT_BUF ∣ 2 ^ 32 := by decide

theorem input_buf_lt : INPUT_BUF < 2 ^ 32 := by decide

/-- Control-x. -/
def C (x : Char) : Byte := BitVec.ofNat 8 (x.toNat - '@'.toNat)

/-- `'\n'`. -/
def newline : Byte := 0x0a

/-- `'\r'`. -/
def carriageReturn : Byte := 0x0d

/-- `'\x7f'`. -/
def delete : Byte := 0x7f

/-- `input`. -/
structure Input where
  buf : Fin INPUT_BUF → Byte
  /-- read index -/
  r : Word
  /-- write index -/
  w : Word
  /-- edit index -/
  e : Word

/-- `input.buf[i % INPUT_BUF]`. -/
def Input.at (i : Input) (k : Word) : Byte := i.buf (Fin.ofNat INPUT_BUF k.toNat)

/-- Moving `r` on and back again. -/
theorem Input.unread (i : Input) : { i with r := i.r + 1 - 1 } = i := by
  rw [BitVec.add_sub_cancel]

/-- The committed characters that have not been read. -/
def Input.ready (i : Input) : List Byte := between i.buf i.r i.w

/-- What `consputc` sends to the screen. -/
inductive Echo where
  | char (c : Byte)
  | backspace

/-- The input buffer, and all that has been echoed. -/
structure Tty where
  input : Input
  screen : List Echo

def Tty.consputc (t : Tty) (c : Echo) : Tty := { t with screen := t.screen ++ [c] }

/-! ### `consoleintr` -/

/-- `input.e--; consputc(BACKSPACE);` -/
def Tty.erase (t : Tty) : Tty :=
  Tty.consputc { t with input := { t.input with e := t.input.e - 1 } } .backspace

/-- The loop of `^U`, for at most `k` turns. -/
def Tty.killLoop : (k : Nat) → Tty → Tty
  | 0, t => t
  | k + 1, t =>
    if t.input.e ≠ t.input.w ∧ t.input.at (t.input.e - 1) ≠ newline then killLoop k t.erase
    else t

/-- `^U`: every turn of the loop brings `e` closer to `w`, so there are no
    more turns than the distance between them. -/
def Tty.killLine (t : Tty) : Tty := t.killLoop (t.input.e - t.input.w).toNat

/-- `input.buf[input.e++ % INPUT_BUF] = c; consputc(c);` -/
def Tty.store (t : Tty) (c : Byte) : Tty :=
  Tty.consputc
    { t with
      input := { t.input with
        buf := Function.update t.input.buf (Fin.ofNat INPUT_BUF t.input.e.toNat) c
        e := t.input.e + 1 } }
    (.char c)

/-- `if(c == '\n' || c == C('D') || input.e == input.r+INPUT_BUF) input.w = input.e;` -/
def Tty.commit (t : Tty) (c : Byte) : Tty :=
  if c = newline ∨ c = C 'D' ∨ t.input.e = t.input.r + BitVec.ofNat 32 INPUT_BUF then
    { t with input := { t.input with w := t.input.e } }
  else t

/-- One turn of the loop of `consoleintr`. -/
def Tty.key (t : Tty) (c : Byte) : Tty :=
  if c = C 'P' then t
  else if c = C 'U' then t.killLine
  else if c = C 'H' ∨ c = delete then
    if t.input.e ≠ t.input.w then t.erase else t
  else if c ≠ 0 ∧ (t.input.e - t.input.r).toNat < INPUT_BUF then
    let c := if c = carriageReturn then newline else c
    (t.store c).commit c
  else t

/-- `consoleintr` on the characters that `getc` delivers, and whether it
    calls `procdump` at the end. -/
def consoleintr (t : Tty) (cs : List Byte) : Tty × Bool :=
  (cs.foldl Tty.key t, cs.contains (C 'P'))

/-! ### `consoleread` -/

/-- How a segment of a call ends. -/
inductive Status where
  | sleeping
  | returned (result : Int)
  deriving DecidableEq

/-- The variables of a call of `consoleread`. The characters stored to
    `dst` so far are kept for reference. -/
structure Read where
  target : Int
  n : Int
  copied : List Byte

/-- A call of `consoleread` with count `n`. -/
def Read.start (n : Int) : Read := { target := n, n := n, copied := [] }

/-- What a segment of `consoleread` leaves behind. -/
structure ReadSegment where
  input : Input
  n : Int
  /-- the characters stored to `dst` -/
  bytes : List Byte
  status : Status

/-- The loop of `consoleread` with `n` characters left to copy, to the next
    sleep or to the return. `killed` is what `myproc()->killed` reads in
    this segment. -/
def readLoop (target : Int) (killed : Bool) : (n : Nat) → Input → ReadSegment
  | 0, i => { input := i, n := 0, bytes := [], status := .returned (target - 0) }
  | n + 1, i =>
    if i.r = i.w then
      if killed = true then
        { input := i, n := n + 1, bytes := [], status := .returned (-1) }
      else
        { input := i, n := n + 1, bytes := [], status := .sleeping }
    else
      let c := i.at i.r
      let i' := { i with r := i.r + 1 }
      if c = C 'D' then
        -- save ^D for next time if the call has copied something
        { input := if (n + 1 : Int) < target then { i' with r := i'.r - 1 } else i'
          n := n + 1
          bytes := []
          status := .returned (target - (n + 1)) }
      else if c = newline then
        { input := i', n := n, bytes := [c], status := .returned (target - n) }
      else
        let seg := readLoop target killed n i'
        { seg with bytes := c :: seg.bytes }

/-- One segment of a call of `consoleread`. -/
def consoleread (i : Input) (rd : Read) (killed : Bool) : ReadSegment :=
  if 0 < rd.n then readLoop rd.target killed rd.n.toNat i
  else { input := i, n := rd.n, bytes := [], status := .returned (rd.target - rd.n) }

/-! ### The system -/

variable {R : Type} {c : Byte}

/-- The console and its readers. `committed` and `out` are history: the
    characters that `w` has been moved past, as they stood in the buffer
    then, and the characters copied out. -/
structure State (R : Type) where
  tty : Tty
  /-- the sleeping calls of `consoleread` -/
  reads : R → Option Read
  committed : List Byte
  out : List (R × Byte)

/-- A turn of the loop of `consoleintr`. -/
def State.key (s : State R) (c : Byte) : State R :=
  { s with
    tty := s.tty.key c
    committed := s.committed ++ between (s.tty.key c).input.buf s.tty.input.w (s.tty.key c).input.w }

/-- A call of `consoleintr`. -/
def State.intr (s : State R) (cs : List Byte) : State R := cs.foldl State.key s

theorem tty_intr : ∀ (cs : List Byte) (s : State R), (s.intr cs).tty = (consoleintr s.tty cs).1 := by
  intro cs
  induction cs with
  | nil =>
    intro s
    rfl
  | cons c cs ih =>
    intro s
    exact ih (s.key c)

/-- Record the segment of the call `rd` by `p`. -/
def State.didRead [DecidableEq R] (s : State R) (p : R) (rd : Read) (seg : ReadSegment) : State R :=
  { s with
    tty := { s.tty with input := seg.input }
    reads := Function.update s.reads p
      (if seg.status = .sleeping then
        some { rd with n := seg.n, copied := rd.copied ++ seg.bytes } else none)
    out := s.out ++ seg.bytes.map (fun c => (p, c)) }

inductive Label (R : Type) where
  /-- an interrupt, for which `getc` delivers `cs` -/
  | intr (cs : List Byte)
  /-- a call of `consoleread` with count `n` begins -/
  | read (p : R) (n : Int) (killed : Bool)
  /-- a sleeping call goes on -/
  | resume (p : R) (killed : Bool)

/-- The console as a labelled transition system. -/
def consoleSystem (R : Type) [DecidableEq R] : System (State R) (Label R) where
  init := fun s =>
    s.tty = { input := { buf := fun _ => 0, r := 0, w := 0, e := 0 }, screen := [] } ∧
    (∀ p, s.reads p = none) ∧ s.committed = [] ∧ s.out = []
  step := fun s l s' =>
    match l with
    | .intr cs => s' = s.intr cs
    | .read p n killed =>
        s.reads p = none ∧
        s' = s.didRead p (.start n) (consoleread s.tty.input (.start n) killed)
    | .resume p killed =>
        ∃ rd, s.reads p = some rd ∧
        s' = s.didRead p rd (consoleread s.tty.input rd killed)

/-! ### What the buffer holds

    The buffer holds the committed characters from index `taken` on,
    followed by the line being edited. -/

structure Held (i : Input) (committed line : List Byte) (taken : Nat) : Prop where
  ready : RingInv i.buf i.r i.w committed taken
  typed : RingInv i.buf i.r i.e (committed ++ line) taken
  /-- a line that fills the buffer is committed -/
  room : line ≠ [] → committed.length + line.length < taken + INPUT_BUF
  plain : newline ∉ line

section held
variable {i : Input} {committed line : List Byte} {taken : Nat}

section

variable (h : Held i committed line taken)

include h

theorem Held.w_sub :
    (i.w - i.r).toNat = committed.length - taken :=
  h.ready.toNat_sub input_buf_lt

theorem Held.e_sub :
    (i.e - i.r).toNat = committed.length + line.length - taken := by
  rw [h.typed.toNat_sub input_buf_lt, List.length_append]

theorem Held.ready_eq : i.ready = committed.drop taken :=
  h.ready.between_read input_buf_dvd input_buf_lt

/-- Nothing is being edited exactly if `e` is `w`. -/
theorem Held.e_eq_iff : i.e = i.w ↔ line = [] := by
  have hle := h.ready.taken_le
  constructor
  · intro heq
    have hw := h.w_sub
    rw [← heq, h.e_sub] at hw
    exact List.length_eq_zero_iff.mp (by omega)
  · intro hnil
    rw [h.typed.nwrite_eq, h.ready.nwrite_eq, hnil, List.append_nil]

end

section

variable (h : Held i committed (line ++ [c]) taken)

include h

/-- The edit index, without the last character. -/
theorem Held.e_pred :
    i.e - 1 = BitVec.ofNat 32 (committed ++ line).length := by
  have hlen : (committed ++ (line ++ [c])).length = (committed ++ line).length + 1 := by
    simp only [List.length_append, List.length_singleton]
    omega
  have hone : (1 : Word) = BitVec.ofNat 32 1 := rfl
  rw [h.typed.nwrite_eq, hlen, BitVec.ofNat_add, hone, BitVec.add_sub_cancel]

/-- The last character typed stands before `e`. -/
theorem Held.last : i.at (i.e - 1) = c := by
  have hle := h.ready.taken_le
  have hlast := h.typed.held (committed ++ line).length (by simp) (by simp; omega)
  unfold Input.at
  rw [h.e_pred, slotIndex_ofNat input_buf_dvd, hlast]
  simp [← List.append_assoc]

/-- Moving `e` back takes the last character of the line away. -/
theorem Held.erase :
    Held { i with e := i.e - 1 } committed line taken := by
  have hle := h.ready.taken_le
  have htyped := h.typed
  rw [← List.append_assoc] at htyped
  refine ⟨h.ready, ?_, ?_, ?_⟩
  · have hcut := htyped.truncate (by simp; omega)
    rw [← h.e_pred] at hcut
    exact hcut
  · intro _
    have hroom := h.room (by simp)
    simp only [List.length_append, List.length_singleton] at hroom
    omega
  · intro hmem
    exact h.plain (List.mem_append_left _ hmem)

end

variable (h : Held i committed line taken)

include h

section

variable (hroom : (i.e - i.r).toNat < INPUT_BUF)

include hroom

/-- A character is appended to the line; it is not committed yet. -/
theorem Held.store (c : Byte) :
    RingInv (Function.update i.buf (Fin.ofNat INPUT_BUF i.e.toNat) c) i.r (i.e + 1)
      (committed ++ (line ++ [c])) taken := by
  have hle := h.ready.taken_le
  have hsub := h.e_sub
  have hfull : i.e ≠ i.r + BitVec.ofNat 32 INPUT_BUF := by
    intro heq
    have := (h.typed.full_iff input_buf_lt).mp heq
    rw [List.length_append] at this
    omega
  rw [← List.append_assoc]
  exact h.typed.push input_buf_dvd input_buf_lt hfull c

/-- A character that does not end the line. -/
theorem Held.type (hc : c ≠ newline) (hfull : i.e + 1 ≠ i.r + BitVec.ofNat 32 INPUT_BUF) :
    Held { i with
      buf := Function.update i.buf (Fin.ofNat INPUT_BUF i.e.toNat) c
      e := i.e + 1 } committed (line ++ [c]) taken := by
  have hpush := h.store hroom c
  refine ⟨?_, hpush, ?_, ?_⟩
  · have hcut := hpush.truncate h.ready.taken_le
    rw [← h.ready.nwrite_eq] at hcut
    exact hcut
  · intro _
    have hfits := hpush.fits
    have hne : (committed ++ (line ++ [c])).length ≠ taken + INPUT_BUF :=
      fun heq => hfull ((hpush.full_iff input_buf_lt).mpr heq)
    rw [List.length_append] at hfits hne
    omega
  · simp [h.plain, Ne.symm hc]

/-- A character that ends the line commits it. -/
theorem Held.enter (c : Byte) :
    Held { i with
      buf := Function.update i.buf (Fin.ofNat INPUT_BUF i.e.toNat) c
      w := i.e + 1
      e := i.e + 1 } (committed ++ (line ++ [c])) [] taken := by
  have hpush := h.store hroom c
  refine ⟨hpush, ?_, fun hne => absurd rfl hne, by simp⟩
  rw [List.append_nil]
  exact hpush

end

/-- Reading takes the next committed character. -/
theorem Held.next {rest : List Byte} (hready : i.ready = c :: rest) :
    i.r ≠ i.w ∧ i.at i.r = c ∧ Held { i with r := i.r + 1 } committed line (taken + 1) ∧
    committed.take (taken + 1) = committed.take taken ++ [c] := by
  rw [h.ready_eq] at hready
  have hlt : taken < committed.length := by
    by_contra hge
    rw [List.drop_eq_nil_of_le (by omega)] at hready
    cases hready
  have hne : i.r ≠ i.w := fun heq => by
    have := (h.ready.empty_iff input_buf_lt).mp heq
    omega
  have hne' : i.r ≠ i.e := fun heq => by
    have := (h.typed.empty_iff input_buf_lt).mp heq
    rw [List.length_append] at this
    omega
  obtain ⟨_, hfront, hready'⟩ := h.ready.pop input_buf_dvd input_buf_lt hne
  obtain ⟨_, _, htyped'⟩ := h.typed.pop input_buf_dvd input_buf_lt hne'
  rw [List.drop_eq_getElem_cons hlt] at hready
  have hc : committed[taken] = c := (List.cons.inj hready).1
  refine ⟨hne, hfront.trans hc, ⟨hready', htyped', ?_, h.plain⟩, ?_⟩
  · intro hline
    have := h.room hline
    omega
  · rw [List.take_succ_eq_append_getElem hlt, hc]

end held

/-! ### The loop of `consoleintr` -/

/-- What is left on the screen when the backspaces are carried out. -/
def display (screen : List Echo) : List Byte :=
  screen.foldl (fun shown x =>
    match x with
    | .char c => shown ++ [c]
    | .backspace => shown.dropLast) []

theorem display_char (screen : List Echo) (c : Byte) :
    display (screen ++ [.char c]) = display screen ++ [c] := by
  simp [display]

theorem display_backspace (screen : List Echo) :
    display (screen ++ [.backspace]) = (display screen).dropLast := by
  simp [display]

/-- The buffer holds the committed characters and the line, and the screen
    shows them. -/
structure Shows (t : Tty) (committed line : List Byte) (taken : Nat) : Prop where
  held : Held t.input committed line taken
  shown : display t.screen = committed ++ line

section keys
variable {t : Tty} {committed line : List Byte} {taken : Nat}

theorem Shows.erase (h : Shows t committed (line ++ [c]) taken) :
    Shows t.erase committed line taken := by
  refine ⟨h.held.erase, ?_⟩
  have hshown := h.shown
  unfold Tty.erase Tty.consputc
  rw [display_backspace, hshown, ← List.append_assoc, List.dropLast_concat]

/-- `^U` erases the whole line: no newline stops it before `w`. -/
theorem Shows.killLoop : ∀ (k : Nat) {t : Tty} {line : List Byte}, line.length ≤ k →
    Shows t committed line taken →
    Shows (t.killLoop k) committed [] taken ∧
      (t.killLoop k).input = { t.input with e := t.input.w } := by
  intro k
  induction k with
  | zero =>
    intro t line hk h
    have hnil : line = [] := List.length_eq_zero_iff.mp (by omega)
    rw [hnil] at h
    have he := h.held.e_eq_iff.mpr rfl
    exact ⟨h, by rw [← he]; rfl⟩
  | succ k ih =>
    intro t line hk h
    rcases List.eq_nil_or_concat line with hnil | ⟨l, c, hline⟩
    · rw [hnil] at h
      have he := h.held.e_eq_iff.mpr rfl
      have hstop : t.killLoop (k + 1) = t := by simp [Tty.killLoop, he]
      rw [hstop]
      exact ⟨h, by rw [← he]⟩
    · rw [List.concat_eq_append] at hline
      rw [hline] at h hk
      have hne : t.input.e ≠ t.input.w := by
        intro heq
        exact absurd (h.held.e_eq_iff.mp heq) (by simp)
      have hc : t.input.at (t.input.e - 1) ≠ newline := by
        rw [h.held.last]
        intro hc
        exact h.held.plain (by simp [hc])
      have hgo : t.killLoop (k + 1) = t.erase.killLoop k := by
        simp only [Tty.killLoop]
        rw [if_pos ⟨hne, hc⟩]
      rw [hgo]
      have hlen : l.length ≤ k := by
        simp only [List.length_append, List.length_singleton] at hk
        omega
      obtain ⟨hshows, hinput⟩ := ih hlen h.erase
      exact ⟨hshows, hinput⟩

variable (h : Shows t committed line taken)

include h

theorem Shows.killLine :
    Shows t.killLine committed [] taken ∧ t.killLine.input = { t.input with e := t.input.w } := by
  refine Shows.killLoop _ ?_ h
  have hle := h.held.ready.taken_le
  have hfits := h.held.typed.fits
  have hlt := input_buf_lt
  rw [List.length_append] at hfits
  have hadd : t.input.e = BitVec.ofNat 32 line.length + t.input.w := by
    rw [h.held.typed.nwrite_eq, h.held.ready.nwrite_eq, List.length_append, ← BitVec.ofNat_add,
      Nat.add_comm]
  rw [hadd, BitVec.add_sub_cancel, BitVec.toNat_ofNat, Nat.mod_eq_of_lt (by omega)]

/-- Backspace erases the last character of the line, if there is one. -/
theorem Shows.backspace :
    Shows (if t.input.e ≠ t.input.w then t.erase else t) committed line.dropLast taken := by
  rcases List.eq_nil_or_concat line with hnil | ⟨l, c, hline⟩
  · rw [hnil] at h ⊢
    rw [if_neg (not_not.mpr (h.held.e_eq_iff.mpr rfl))]
    exact h
  · rw [List.concat_eq_append] at hline
    rw [hline] at h ⊢
    have hne : t.input.e ≠ t.input.w := by
      intro heq
      exact absurd (h.held.e_eq_iff.mp heq) (by simp)
    rw [if_pos hne, List.dropLast_concat]
    exact h.erase

/-- A character is stored, and committed with the line if it ends it. -/
theorem Shows.store (hroom : (t.input.e - t.input.r).toNat < INPUT_BUF) (c : Byte) :
    Shows ((t.store c).commit c) committed (line ++ [c]) taken ∨
    Shows ((t.store c).commit c) (committed ++ (line ++ [c])) [] taken := by
  have hshown : display (t.store c).screen = committed ++ (line ++ [c]) := by
    unfold Tty.store Tty.consputc
    rw [display_char, h.shown, List.append_assoc]
  unfold Tty.commit
  by_cases hend : c = newline ∨ c = C 'D' ∨
      (t.store c).input.e = (t.store c).input.r + BitVec.ofNat 32 INPUT_BUF
  · rw [if_pos hend]
    refine Or.inr ⟨h.held.enter hroom c, ?_⟩
    rw [List.append_nil]
    exact hshown
  · rw [if_neg hend]
    rw [not_or, not_or] at hend
    exact Or.inl ⟨h.held.type hroom hend.1 hend.2.2, hshown⟩

/-- One turn of the loop of `consoleintr` edits the line, or commits it. -/
theorem Shows.key (c : Byte) : ∃ more line', Shows (t.key c) (committed ++ more) line' taken := by
  unfold Tty.key
  by_cases hP : c = C 'P'
  · rw [if_pos hP]
    exact ⟨[], line, by simpa using h⟩
  rw [if_neg hP]
  by_cases hU : c = C 'U'
  · rw [if_pos hU]
    exact ⟨[], [], by simpa using h.killLine.1⟩
  rw [if_neg hU]
  by_cases hH : c = C 'H' ∨ c = delete
  · rw [if_pos hH]
    exact ⟨[], line.dropLast, by simpa using h.backspace⟩
  rw [if_neg hH]
  by_cases hroom : c ≠ 0 ∧ (t.input.e - t.input.r).toNat < INPUT_BUF
  · rw [if_pos hroom]
    rcases h.store hroom.2 (if c = carriageReturn then newline else c) with hs | hs
    · exact ⟨[], _, by simpa using hs⟩
    · exact ⟨_, [], hs⟩
  · rw [if_neg hroom]
    exact ⟨[], line, by simpa using h⟩

/-- Erasing and killing the line leave `r`, `w` and the characters alone
    and keep `e` between `w` and where it was. -/
theorem Shows.erasing (hc : c = C 'U' ∨ c = C 'H' ∨ c = delete) :
    (t.key c).input.buf = t.input.buf ∧ (t.key c).input.r = t.input.r ∧
    (t.key c).input.w = t.input.w ∧
    (t.input.w - t.input.r).toNat ≤ ((t.key c).input.e - t.input.r).toNat ∧
    ((t.key c).input.e - t.input.r).toNat ≤ (t.input.e - t.input.r).toNat := by
  have hle := h.held.ready.taken_le
  have hw := h.held.w_sub
  have he := h.held.e_sub
  have hcases : t.key c = t.killLine ∨
      t.key c = if t.input.e ≠ t.input.w then t.erase else t := by
    rcases hc with hc | hc | hc
    · left
      rw [hc]
      rfl
    · right
      rw [hc]
      rfl
    · right
      rw [hc]
      rfl
  rcases hcases with heq | heq
  · rw [heq, h.killLine.2]
    refine ⟨rfl, rfl, rfl, le_refl _, ?_⟩
    simp only
    omega
  · have hback := h.backspace
    have hsame : (t.key c).input = { t.input with e := (t.key c).input.e } := by
      rw [heq]
      split <;> rfl
    have he' := hback.held.e_sub
    rw [← heq] at he'
    rw [hsame] at he' ⊢
    simp only [List.length_dropLast] at he' ⊢
    exact ⟨trivial, trivial, trivial, by omega, by omega⟩

end keys

/-! ### The loop of `consoleread` -/

/-- The characters of `cs` that are delivered. -/
def delivered (cs : List Byte) : List Byte := cs.filter (fun c => c ≠ C 'D')

theorem delivered_concat (cs : List Byte) (c : Byte) :
    delivered (cs ++ [c]) = delivered cs ++ if c = C 'D' then [] else [c] := by
  unfold delivered
  by_cases hc : c = C 'D' <;> simp [List.filter_append, hc]

/-- What a segment that begins with `n` characters left to copy does to
    the buffer and to the variables of the call. -/
structure SegmentSpec (committed line : List Byte) (taken : Nat) (target n : Int)
    (killed : Bool) (seg : ReadSegment) : Prop where
  held : ∃ taken', Held seg.input committed line taken' ∧
    delivered (committed.take taken') = delivered (committed.take taken) ++ seg.bytes
  count : seg.n + seg.bytes.length = n
  asleep : seg.status = .sleeping → 0 < seg.n
  result : ∀ r, seg.status = .returned r → r = target - seg.n ∨ (r = -1 ∧ killed = true)

/-- A segment that returns to its caller. -/
theorem SegmentSpec.returned {committed line bytes : List Byte} {taken : Nat} {target n m : Int}
    {killed : Bool} {i : Input}
    (hheld : ∃ taken', Held i committed line taken' ∧
      delivered (committed.take taken') = delivered (committed.take taken) ++ bytes)
    (hcount : m + bytes.length = n) :
    SegmentSpec committed line taken target n killed ⟨i, m, bytes, .returned (target - m)⟩ :=
  ⟨hheld, hcount, (fun hs => by cases hs), fun _ hr => Or.inl (Status.returned.inj hr).symm⟩

theorem readLoop_spec (target : Int) (killed : Bool) {committed line : List Byte} :
    ∀ (n : Nat) (i : Input) (taken : Nat), Held i committed line taken →
      SegmentSpec committed line taken target n killed (readLoop target killed n i) := by
  intro n
  induction n with
  | zero =>
    intro i taken h
    exact .returned ⟨taken, h, by simp⟩ (by simp)
  | succ n ih =>
    intro i taken h
    cases hready : i.ready with
    | nil =>
      -- nothing is ready: the segment ends here
      have hempty : i.r = i.w := by
        rw [h.ready_eq, List.drop_eq_nil_iff] at hready
        exact (h.ready.empty_iff input_buf_lt).mpr (Nat.le_antisymm h.ready.taken_le hready)
      cases killed with
      | true =>
        simp only [readLoop, if_pos hempty, if_true]
        refine ⟨⟨taken, h, by simp⟩, by simp, ?_, ?_⟩
        · intro hs
          cases hs
        · intro r hr
          exact Or.inr ⟨(Status.returned.inj hr).symm, rfl⟩
      | false =>
        simp only [readLoop, if_pos hempty, Bool.false_eq_true, if_false]
        refine ⟨⟨taken, h, by simp⟩, by simp, ?_, ?_⟩
        · intro _
          show (0 : Int) < n + 1
          omega
        · intro r hr
          cases hr
    | cons c rest =>
      obtain ⟨hne, hc, hnext, htake⟩ := h.next hready
      simp only [readLoop, if_neg hne, hc]
      by_cases hD : c = C 'D'
      · rw [if_pos hD]
        refine .returned ?_ (by simp)
        -- either ^D is taken, or `r` is moved back and nothing happened
        by_cases hsave : (n + 1 : Int) < target
        · refine ⟨taken, ?_, by simp⟩
          rw [if_pos hsave, Input.unread]
          exact h
        · refine ⟨taken + 1, ?_, ?_⟩
          · rw [if_neg hsave]
            exact hnext
          · rw [htake, delivered_concat, if_pos hD]
      · rw [if_neg hD]
        have htake' : delivered (committed.take (taken + 1)) =
            delivered (committed.take taken) ++ [c] := by
          rw [htake, delivered_concat, if_neg hD]
        by_cases hnl : c = newline
        · rw [if_pos hnl]
          exact .returned ⟨taken + 1, hnext, htake'⟩ (by simp)
        · rw [if_neg hnl]
          obtain ⟨⟨taken', hheld, hdel⟩, hcount, hasleep, hresult⟩ := ih _ _ hnext
          refine ⟨⟨taken', hheld, ?_⟩, ?_, hasleep, hresult⟩
          · rw [hdel, htake', List.append_assoc]
            rfl
          · simp only [List.length_cons]
            push_cast at hcount ⊢
            omega

theorem consoleread_spec {i : Input} {committed line : List Byte} {taken : Nat}
    (h : Held i committed line taken) (rd : Read) (killed : Bool) :
    SegmentSpec committed line taken rd.target rd.n killed (consoleread i rd killed) := by
  unfold consoleread
  by_cases hn : 0 < rd.n
  · rw [if_pos hn]
    have hspec := readLoop_spec rd.target killed rd.n.toNat i taken h
    rw [Int.toNat_of_nonneg (by omega)] at hspec
    exact hspec
  · rw [if_neg hn]
    exact .returned ⟨taken, h, by simp⟩ (by simp)

/-- A segment that meets `^D` behind the characters `pre` copies these and
    returns, and `^D` stays where it is unless the call has copied
    nothing. -/
theorem readLoop_eof (target : Int) (killed : Bool) {committed line post : List Byte} :
    ∀ (pre : List Byte) (n : Nat) (i : Input) (taken : Nat), Held i committed line taken →
      i.ready = pre ++ C 'D' :: post → newline ∉ pre → C 'D' ∉ pre → pre.length < n →
      let seg := readLoop target killed n i
      seg.bytes = pre ∧ seg.status = .returned (target - n + pre.length) ∧
      seg.input.ready = if (n : Int) - pre.length < target then C 'D' :: post else post := by
  intro pre
  induction pre with
  | nil =>
    intro n i taken h hready _ _ hlen
    cases n with
    | zero => simp at hlen
    | succ n =>
      obtain ⟨hne, hc, hnext, _⟩ := h.next hready
      simp only [readLoop, if_neg hne, hc, if_true]
      refine ⟨trivial, by simp, ?_⟩
      by_cases hsave : (n + 1 : Int) < target
      · rw [if_pos hsave, Input.unread]
        simpa [hsave] using hready
      · simp only [if_neg hsave]
        rw [hnext.ready_eq, ← List.drop_drop, ← h.ready_eq, hready]
        simp [hsave]
  | cons c pre ih =>
    intro n i taken h hready hnl hD hlen
    cases n with
    | zero => simp at hlen
    | succ n =>
      obtain ⟨hne, hc, hnext, _⟩ := h.next hready
      have hcD : c ≠ C 'D' := fun heq => hD (by simp [heq])
      have hcnl : c ≠ newline := fun heq => hnl (by simp [heq])
      have hready' : Input.ready { i with r := i.r + 1 } = pre ++ C 'D' :: post := by
        rw [hnext.ready_eq, ← List.drop_drop, ← h.ready_eq, hready]
        rfl
      obtain ⟨hbytes, hstatus, hrest⟩ := ih n _ _ hnext hready'
        (fun hmem => hnl (List.mem_cons_of_mem _ hmem))
        (fun hmem => hD (List.mem_cons_of_mem _ hmem)) (by simpa using hlen)
      simp only [readLoop, if_neg hne, hc, if_neg hcD, if_neg hcnl]
      refine ⟨by rw [hbytes], ?_, ?_⟩
      · rw [hstatus]
        congr 1
        push_cast [List.length_cons]
        omega
      · rw [hrest]
        have harith : ((n + 1 : Nat) : Int) - ((c :: pre).length : Nat) = n - pre.length := by
          push_cast [List.length_cons]
          omega
        rw [harith]

/-! ### Every run -/

/-- The invariant of the console: what the buffer holds, and that exactly
    the characters taken from it, without `^D`, have been copied out. -/
structure ConsoleInv (s : State R) (line : List Byte) (taken : Nat) : Prop where
  shows : Shows s.tty s.committed line taken
  delivered : s.out.map Prod.snd = delivered (s.committed.take taken)
  reads : ∀ p rd, s.reads p = some rd → 0 < rd.n ∧ rd.n + rd.copied.length = rd.target

section runs
variable {s s' : State R} {line : List Byte} {taken : Nat}

theorem ConsoleInv.key (h : ConsoleInv s line taken) (c : Byte) :
    ∃ more line', ConsoleInv (s.key c) line' taken ∧ (s.key c).committed = s.committed ++ more := by
  obtain ⟨more, line', hshows⟩ := h.shows.key c
  have hle := h.shows.held.ready.taken_le
  -- the characters committed by this turn are those behind the old `w`
  have hmore : between (s.tty.key c).input.buf s.tty.input.w (s.tty.key c).input.w = more := by
    rw [h.shows.held.ready.nwrite_eq,
      hshows.held.ready.between_eq input_buf_dvd input_buf_lt hle (by simp), List.drop_left]
  have hcommitted : (s.key c).committed = s.committed ++ more := by
    unfold State.key
    rw [hmore]
  refine ⟨more, line', ⟨?_, ?_, h.reads⟩, hcommitted⟩
  · rw [hcommitted]
    exact hshows
  · rw [hcommitted, List.take_append_of_le_length hle]
    exact h.delivered

theorem ConsoleInv.intr : ∀ (cs : List Byte) {s : State R} {line : List Byte},
    ConsoleInv s line taken →
    ∃ more line', ConsoleInv (s.intr cs) line' taken ∧
      (s.intr cs).committed = s.committed ++ more := by
  intro cs
  induction cs with
  | nil =>
    intro s line h
    exact ⟨[], line, h, by simp [State.intr]⟩
  | cons c cs ih =>
    intro s line h
    obtain ⟨more, line', h1, hc1⟩ := h.key c
    obtain ⟨more', line'', h2, hc2⟩ := ih h1
    refine ⟨more ++ more', line'', h2, ?_⟩
    rw [← List.append_assoc, ← hc1, ← hc2]
    rfl

/-- The characters committed and not read stay in the buffer during an
    interrupt, and more may follow them. -/
theorem ConsoleInv.ready_intr (h : ConsoleInv s line taken) (cs : List Byte) :
    ∃ more, (s.intr cs).tty.input.ready = s.tty.input.ready ++ more := by
  obtain ⟨more, line', h', hc⟩ := h.intr cs
  refine ⟨more, ?_⟩
  rw [h'.shows.held.ready_eq, h.shows.held.ready_eq, hc,
    List.drop_append_of_le_length h.shows.held.ready.taken_le]

theorem ConsoleInv.didRead [DecidableEq R] (h : ConsoleInv s line taken) (p : R) (rd : Read)
    (killed : Bool)
    (hrd : rd.n + rd.copied.length = rd.target) :
    ∃ taken', ConsoleInv (s.didRead p rd (consoleread s.tty.input rd killed)) line taken' := by
  have hspec := consoleread_spec h.shows.held rd killed
  obtain ⟨taken', hheld, hdel⟩ := hspec.held
  refine ⟨taken', ⟨hheld, h.shows.shown⟩, ?_, ?_⟩
  · simp only [State.didRead, List.map_append, List.map_map, Function.comp_def, List.map_id']
    rw [h.delivered, hdel]
  · intro q rd' hq
    by_cases hqp : q = p
    · simp only [State.didRead, hqp, Function.update_self] at hq
      by_cases hs : (consoleread s.tty.input rd killed).status = .sleeping
      · rw [if_pos hs] at hq
        have hcount := hspec.count
        rw [← Option.some.inj hq]
        refine ⟨hspec.asleep hs, ?_⟩
        simp only [List.length_append]
        push_cast
        omega
      · rw [if_neg hs] at hq
        cases hq
    · simp only [State.didRead, Function.update_of_ne hqp] at hq
      exact h.reads q rd' hq

theorem consoleInv_step [DecidableEq R] {l : Label R} (h : ConsoleInv s line taken)
    (hst : (consoleSystem R).step s l s') : ∃ line' taken', ConsoleInv s' line' taken' := by
  match l with
  | .intr cs =>
    obtain ⟨_, line', h', _⟩ := h.intr cs
    rw [show s' = s.intr cs from hst]
    exact ⟨line', taken, h'⟩
  | .read p n killed =>
    obtain ⟨_, rfl⟩ := hst
    obtain ⟨taken', h'⟩ := h.didRead p (.start n) killed (by simp [Read.start])
    exact ⟨line, taken', h'⟩
  | .resume p killed =>
    obtain ⟨rd, hrd, rfl⟩ := hst
    obtain ⟨taken', h'⟩ := h.didRead p rd killed (h.reads p rd hrd).2
    exact ⟨line, taken', h'⟩

theorem consoleInv_reachable [DecidableEq R] (h : Reachable (consoleSystem R) s) :
    ∃ line taken, ConsoleInv s line taken := by
  have hinit : ∀ s, (consoleSystem R).init s → ∃ line taken, ConsoleInv s line taken := by
    rintro s ⟨htty, hreads, hcommitted, hout⟩
    refine ⟨[], 0, ⟨⟨?_, ?_⟩, ?_, ?_⟩⟩
    · rw [htty, hcommitted]
      exact ⟨RingInv.nil _, RingInv.nil _, fun hne => absurd rfl hne, by simp⟩
    · rw [htty, hcommitted]
      rfl
    · rw [hout, hcommitted]
      rfl
    · intro p rd hp
      rw [hreads p] at hp
      cases hp
  have hstep : ∀ s l s', (∃ line taken, ConsoleInv s line taken) →
      (consoleSystem R).step s l s' → ∃ line taken, ConsoleInv s' line taken := by
    rintro s l s' ⟨line, taken, h⟩ hst
    exact consoleInv_step h hst
  exact Reachable.invariant hinit hstep h

/-! ### `^D` -/

/-- A call of `consoleread` that can run in this state: a new one, or one
    that is asleep. -/
def State.Calls (s : State R) (rd : Read) : Prop :=
  (∃ n, 0 < n ∧ rd = .start n) ∨ ∃ p, s.reads p = some rd

theorem ConsoleInv.calls (h : ConsoleInv s line taken) {rd : Read} (hrd : s.Calls rd) :
    0 < rd.n ∧ rd.n + rd.copied.length = rd.target := by
  rcases hrd with ⟨n, hn, rfl⟩ | ⟨p, hp⟩
  · exact ⟨hn, by simp [Read.start]⟩
  · exact h.reads p rd hp

theorem ConsoleInv.eof (h : ConsoleInv s line taken) {rd : Read} (hrd : s.Calls rd)
    (killed : Bool) (pre : List Byte) {post : List Byte} (hready : s.tty.input.ready = pre ++ C 'D' :: post)
    (hnl : newline ∉ pre) (hD : C 'D' ∉ pre) (hlen : pre.length < rd.n) :
    let seg := consoleread s.tty.input rd killed
    seg.bytes = pre ∧ seg.status = .returned (rd.copied ++ pre).length ∧
    seg.input.ready = if rd.copied ++ pre = [] then post else C 'D' :: post := by
  obtain ⟨hpos, hcount⟩ := h.calls hrd
  have hn : ((rd.n.toNat : Nat) : Int) = rd.n := Int.toNat_of_nonneg (by omega)
  obtain ⟨hbytes, hstatus, hrest⟩ := readLoop_eof rd.target killed pre rd.n.toNat s.tty.input taken
    h.shows.held hready hnl hD (by omega)
  unfold consoleread
  rw [if_pos hpos]
  refine ⟨hbytes, ?_, ?_⟩
  · rw [hstatus, hn, List.length_append]
    congr 1
    push_cast
    omega
  · rw [hrest, hn]
    by_cases hnil : rd.copied ++ pre = []
    · obtain ⟨hcopied, hpre⟩ := List.append_eq_nil_iff.mp hnil
      rw [hcopied] at hcount
      rw [if_pos hnil, if_neg]
      rw [hpre]
      simp only [List.length_nil] at hcount ⊢
      omega
    · have hpos' : 0 < (rd.copied ++ pre).length := List.length_pos_iff.mpr hnil
      rw [List.length_append] at hpos'
      rw [if_neg hnil, if_pos (by omega)]

/-- The next character to be read is `^D`. -/
def EofPending (i : Input) : Prop := ∃ post, i.ready = C 'D' :: post

/-- The step is a segment of a read that has copied nothing yet. -/
def FreshRead (s : State R) : Label R → Prop
  | .intr _ => False
  | .read _ n _ => 0 < n
  | .resume p _ => ∃ rd, s.reads p = some rd ∧ rd.copied = []

/-- Only a read that has copied nothing takes a `^D` away. -/
theorem ConsoleInv.eofPending_step [DecidableEq R] {l : Label R} (h : ConsoleInv s line taken)
    (hst : (consoleSystem R).step s l s') (hl : ¬ FreshRead s l) (he : EofPending s.tty.input) :
    EofPending s'.tty.input := by
  obtain ⟨post, hpost⟩ := he
  match l with
  | .intr cs =>
    obtain ⟨more, hmore⟩ := h.ready_intr cs
    rw [show s' = s.intr cs from hst]
    refine ⟨post ++ more, ?_⟩
    rw [hmore, hpost]
    rfl
  | .read p n killed =>
    obtain ⟨_, rfl⟩ := hst
    have hn : ¬ 0 < n := hl
    have hsame : (consoleread s.tty.input (.start n) killed).input = s.tty.input := by
      unfold consoleread
      rw [if_neg (show ¬ 0 < (Read.start n).n from hn)]
    exact ⟨post, (congrArg Input.ready hsame).trans hpost⟩
  | .resume p killed =>
    obtain ⟨rd, hrd, rfl⟩ := hst
    have hcopied : rd.copied ≠ [] := fun hnil => hl ⟨rd, hrd, hnil⟩
    have hpos := (h.reads p rd hrd).1
    obtain ⟨_, _, hrest⟩ := h.eof (Or.inr ⟨p, hrd⟩) killed [] hpost (by simp) (by simp)
      (by simpa using hpos)
    rw [List.append_nil, if_neg hcopied] at hrest
    exact ⟨post, hrest⟩

/-- `s'` is reached from `s` without a segment of a read that has copied
    nothing. -/
def NoFreshRead [DecidableEq R] (s s' : State R) : Prop :=
  Relation.ReflTransGen (fun s s' => ∃ l, (consoleSystem R).step s l s' ∧ ¬ FreshRead s l) s s'

theorem eofPending_run [DecidableEq R] (h : ∃ line taken, ConsoleInv s line taken) (hrun : NoFreshRead s s')
    (he : EofPending s.tty.input) :
    (∃ line taken, ConsoleInv s' line taken) ∧ EofPending s'.tty.input := by
  induction hrun with
  | refl => exact ⟨h, he⟩
  | tail _ hlast ih =>
    obtain ⟨⟨line, taken, hinv⟩, hpending⟩ := ih
    obtain ⟨l, hst, hl⟩ := hlast
    exact ⟨consoleInv_step hinv hst, hinv.eofPending_step hst hl hpending⟩

/-! ### The line discipline -/

/-- The line discipline, in one state of the console. -/
structure LineDiscipline [DecidableEq R] (s : State R) : Prop where
  order : (s.tty.input.w - s.tty.input.r).toNat ≤ (s.tty.input.e - s.tty.input.r).toNat
  bounded : (s.tty.input.e - s.tty.input.r).toNat ≤ INPUT_BUF
  /-- erase and kill-line keep `e` at or above `w` and change nothing else -/
  erases : ∀ c, c = C 'U' ∨ c = C 'H' ∨ c = delete →
    (s.tty.key c).input.buf = s.tty.input.buf ∧ (s.tty.key c).input.r = s.tty.input.r ∧
    (s.tty.key c).input.w = s.tty.input.w ∧
    (s.tty.input.w - s.tty.input.r).toNat ≤ ((s.tty.key c).input.e - s.tty.input.r).toNat ∧
    ((s.tty.key c).input.e - s.tty.input.r).toNat ≤ (s.tty.input.e - s.tty.input.r).toNat
  /-- an interrupt keeps what is committed and not read -/
  keeps : ∀ cs, ∃ more, (consoleintr s.tty cs).1.input.ready = s.tty.input.ready ++ more
  /-- the characters copied out are the committed ones taken from the
      buffer, in order and without `^D`; the others are still there -/
  delivers : ∃ taken, taken ≤ s.committed.length ∧
    s.out.map Prod.snd = delivered (s.committed.take taken) ∧
    s.tty.input.ready = s.committed.drop taken
  /-- a read returns the number of characters it has copied, or `-1` -/
  result : ∀ rd killed r, s.Calls rd →
    (consoleread s.tty.input rd killed).status = .returned r →
    r = (rd.copied ++ (consoleread s.tty.input rd killed).bytes).length ∨
      (r = -1 ∧ killed = true)
  /-- `^D` ends a read without being delivered, and stays if the read has
      copied something -/
  eof : ∀ rd killed pre post, s.Calls rd → s.tty.input.ready = pre ++ C 'D' :: post →
    newline ∉ pre → C 'D' ∉ pre → pre.length < rd.n →
    (consoleread s.tty.input rd killed).bytes = pre ∧
    (consoleread s.tty.input rd killed).status = .returned (rd.copied ++ pre).length ∧
    (consoleread s.tty.input rd killed).input.ready =
      if rd.copied ++ pre = [] then post else C 'D' :: post
  /-- then the next read that has copied nothing returns 0 -/
  next_eof : EofPending s.tty.input → ∀ s', NoFreshRead s s' → ∀ rd killed, s'.Calls rd →
    rd.copied = [] → (consoleread s'.tty.input rd killed).status = .returned 0 ∧
      (consoleread s'.tty.input rd killed).bytes = []

/-- **The console keeps its line discipline**, for every sequence of
    characters and every interleaving of interrupts and readers. -/
theorem console_line_discipline [DecidableEq R] (h : Reachable (consoleSystem R) s) : LineDiscipline s := by
  obtain ⟨line, taken, hinv⟩ := consoleInv_reachable h
  have hheld := hinv.shows.held
  have hle := hheld.ready.taken_le
  have hfits := hheld.typed.fits
  rw [List.length_append] at hfits
  refine ⟨?_, ?_, fun c hc => hinv.shows.erasing hc, ?_,
    ⟨taken, hle, hinv.delivered, hheld.ready_eq⟩, ?_, ?_, ?_⟩
  · rw [hheld.w_sub, hheld.e_sub]
    omega
  · rw [hheld.e_sub]
    omega
  · intro cs
    obtain ⟨more, hmore⟩ := hinv.ready_intr cs
    rw [tty_intr] at hmore
    exact ⟨more, hmore⟩
  · intro rd killed r hrd hr
    have hspec := consoleread_spec hheld rd killed
    have hcount := hspec.count
    obtain ⟨_, htarget⟩ := hinv.calls hrd
    rcases hspec.result r hr with hr | hr
    · left
      rw [hr, List.length_append]
      push_cast
      omega
    · exact Or.inr hr
  · intro rd killed pre post hrd hready hnl hD hlen
    exact hinv.eof hrd killed pre hready hnl hD hlen
  · intro he s' hrun rd killed hrd hcopied
    obtain ⟨⟨line', taken', hinv'⟩, post, hpost⟩ :=
      eofPending_run ⟨line, taken, hinv⟩ hrun he
    have hpos := (hinv'.calls hrd).1
    obtain ⟨hbytes, hstatus, _⟩ := hinv'.eof hrd killed [] hpost (by simp) (by simp)
      (by simpa using hpos)
    rw [hcopied] at hstatus
    exact ⟨hstatus, hbytes⟩

end runs

/-! ### A line ended by `^D` -/

/-- The console at the start. -/
def booted : State Unit where
  tty := { input := { buf := fun _ => 0, r := 0, w := 0, e := 0 }, screen := [] }
  reads := fun _ => none
  committed := []
  out := []

/-- The characters `a`, `b`, backspace, `c` and `^D` have been typed and a
    read with count 10 has been made. -/
def lineRead : State Unit :=
  let s := booted.intr [0x61, 0x62, C 'H', 0x63, C 'D']
  s.didRead () (.start 10) (consoleread s.tty.input (.start 10) false)

theorem reachable_lineRead : Reachable (consoleSystem Unit) lineRead := by
  have h0 : Reachable (consoleSystem Unit) booted := .init ⟨rfl, fun _ => rfl, rfl, rfl⟩
  have h1 : Reachable (consoleSystem Unit) (booted.intr [0x61, 0x62, C 'H', 0x63, C 'D']) :=
    .step (.intr _) h0 rfl
  exact .step (.read () 10 false) h1 ⟨rfl, rfl⟩

/-- The read has delivered `ac`, and the next one returns 0. -/
theorem console_line_discipline_lineRead :
    LineDiscipline lineRead ∧ lineRead.out.map Prod.snd = [0x61, 0x63] ∧
    (consoleread lineRead.tty.input (.start 5) false).status = .returned 0 := by
  have h := console_line_discipline reachable_lineRead
  have hready : lineRead.tty.input.ready = C 'D' :: [] := by decide
  refine ⟨h, by decide, ?_⟩
  exact (h.next_eof ⟨[], hready⟩ lineRead .refl (.start 5) false
    (Or.inl ⟨5, by decide, rfl⟩) rfl).1

end Xv6.Console
