import Xv6.Shell.Parser
import Mathlib.Data.List.Infix
import Mathlib.Data.List.TakeWhile

/-! # The Grammar of Command Lines

    The language the shell understands, stated without a cursor: a line is
    cut into lexemes, and

        line  ::= pipe '&'* [';' line]
        pipe  ::= exec ['|' pipe]
        exec  ::= '(' line ')' redir* | redir* (word redir*)*
        redir ::= ('<' | '>' | '>>') word

    with fewer than `MAXARGS` words in one `exec`. `Derives` relates lexemes
    and the tree they denote. The second half of the file says what
    `gettoken` and `peek` do to the lexemes; nothing else about characters
    is used after that.
-/

namespace Xv6.Shell

variable {c : Char}

/-! ### Lexemes -/

inductive Lexeme where
  | word (w : List Char)
  | bar | amp | semi | lt | gt | gtgt | lpar | rpar
  deriving DecidableEq, Repr

/-- The lexeme a symbol other than `>` is. -/
def symbol? : Char → Option Lexeme
  | '|' => some .bar
  | '&' => some .amp
  | ';' => some .semi
  | '<' => some .lt
  | '(' => some .lpar
  | ')' => some .rpar
  | _ => none

/-- The lexemes of a line: `>>` is taken before `>`, and a word is as long as
    possible. -/
def lexemes : List Char → List Lexeme
  | [] => []
  | '>' :: '>' :: s => .gtgt :: lexemes s
  | '>' :: s => .gt :: lexemes s
  | c :: s =>
    match symbol? c with
    | some l => l :: lexemes s
    | none =>
      if isSpace c then lexemes s
      else .word (c :: s.takeWhile isWord) :: lexemes (s.dropWhile isWord)
termination_by s => s.length
decreasing_by
  all_goals
    simp only [List.length_cons]
    first
      | omega
      | exact Nat.lt_succ_of_le (List.dropWhile_suffix _).length_le

/-! ### The grammar -/

/-- `redir*`, with the redirections in reading order. -/
inductive Redirs : List Lexeme → List (Redir (List Char)) → Prop where
  | nil : Redirs [] []
  | input {ls rs} (w : List Char) (h : Redirs ls rs) :
      Redirs (.lt :: .word w :: ls) (⟨w, O_RDONLY, 0⟩ :: rs)
  | output {ls rs} (w : List Char) (h : Redirs ls rs) :
      Redirs (.gt :: .word w :: ls) (⟨w, O_WRONLY ||| O_CREATE, 1⟩ :: rs)
  | append {ls rs} (w : List Char) (h : Redirs ls rs) :
      Redirs (.gtgt :: .word w :: ls) (⟨w, O_WRONLY ||| O_CREATE, 1⟩ :: rs)

/-- `(word redir*)*`. -/
inductive Args : List Lexeme → List (List Char) → List (Redir (List Char)) → Prop where
  | nil : Args [] [] []
  | cons {ls ls' rs rs' ws} (w : List Char) (h : Redirs ls rs) (h' : Args ls' ws rs') :
      Args (.word w :: (ls ++ ls')) (w :: ws) (rs ++ rs')

/-- The nonterminals that nest. -/
inductive Phrase where
  | line | pipe | exec
  deriving DecidableEq

/-- `BACK`, `n` times. -/
def backs {W : Type} : (n : Nat) → Cmd W → Cmd W
  | 0, cmd => cmd
  | n + 1, cmd => backs n (.BACK cmd)

inductive Derives : Phrase → List Lexeme → Cmd (List Char) → Prop where
  | line {ls t} (n : Nat) (h : Derives .pipe ls t) :
      Derives .line (ls ++ List.replicate n .amp) (backs n t)
  | seq {ls ls' t t'} (n : Nat) (h : Derives .pipe ls t) (h' : Derives .line ls' t') :
      Derives .line (ls ++ List.replicate n .amp ++ .semi :: ls') (.LIST (backs n t) t')
  | exec {ls t} (h : Derives .exec ls t) : Derives .pipe ls t
  | pipe {ls ls' t t'} (h : Derives .exec ls t) (h' : Derives .pipe ls' t') :
      Derives .pipe (ls ++ .bar :: ls') (.PIPE t t')
  | block {ls ls' t rs} (h : Derives .line ls t) (h' : Redirs ls' rs) :
      Derives .exec (.lpar :: (ls ++ .rpar :: ls')) (wrap t rs)
  | simple {ls ls' ws rs rs'} (h : Redirs ls rs) (h' : Args ls' ws rs')
      (hn : ws.length < MAXARGS) :
      Derives .exec (ls ++ ls') (wrap (.EXEC ws) (rs ++ rs'))

/-! ### Lexemes and characters -/

/-- The character a lexeme starts with, if it is a symbol. -/
def Lexeme.lead : Lexeme → Option Char
  | .word _ => none
  | .bar => some '|'
  | .amp => some '&'
  | .semi => some ';'
  | .lt => some '<'
  | .gt => some '>'
  | .gtgt => some '>'
  | .lpar => some '('
  | .rpar => some ')'

/-- What `gettoken` returns for it. -/
def Lexeme.code : Lexeme → Char
  | .word _ => 'a'
  | .bar => '|'
  | .amp => '&'
  | .semi => ';'
  | .lt => '<'
  | .gt => '>'
  | .gtgt => '+'
  | .lpar => '('
  | .rpar => ')'

theorem lexemes_space (hc : isSpace c = true) (s : List Char) : lexemes (c :: s) = lexemes s := by
  have hmem : c ∈ whitespace := by simpa [isSpace] using hc
  simp only [whitespace, List.mem_cons, List.not_mem_nil, or_false] at hmem
  rcases hmem with rfl | rfl | rfl | rfl | rfl <;>
    simp [lexemes, symbol?, isSpace, whitespace]

theorem lexemes_skip (s : List Char) : lexemes (skip s) = lexemes s := by
  induction s with
  | nil => rfl
  | cons c s ih =>
    by_cases hc : isSpace c = true
    · rw [lexemes_space hc, ← ih]
      simp [skip, hc]
    · simp [skip, hc]

theorem skip_suffix (s : Ptr) : skip s <:+ s := List.dropWhile_suffix _

/-- `dropWhile` stops at a character it does not drop. -/
theorem dropWhile_cons {p : Char → Bool} {s r : List Char} (h : s.dropWhile p = c :: r) :
    p c = false := by
  have hne : s.dropWhile p ≠ [] := by
    rw [h]
    exact List.cons_ne_nil _ _
  have hhead := List.head_dropWhile_not p hne
  simpa only [h, List.head_cons] using hhead

/-- A word of the line: as long as possible, and not empty. -/
structure Span.Valid (line : Ptr) (w : Span) : Prop where
  suffix : w.q <:+ line
  split : w.q = w.text ++ w.eq
  nonempty : w.text ≠ []
  chars : ∀ c ∈ w.text, isWord c = true
  maximal : ∀ c s, w.eq = c :: s → isWord c = false

theorem Span.Valid.mono {line line' : Ptr} {w : Span} (h : w.Valid line) (hs : line <:+ line') :
    w.Valid line' :=
  { h with suffix := h.suffix.trans hs }

/-- The word at the start of `c :: s`. -/
theorem valid_word {s : Ptr} (hc : isWord c = true) :
    (⟨c :: s, (c :: s).dropWhile isWord⟩ : Span).text = c :: s.takeWhile isWord ∧
    (⟨c :: s, (c :: s).dropWhile isWord⟩ : Span).Valid (c :: s) := by
  have happ := List.takeWhile_append_dropWhile (p := isWord) (l := c :: s)
  have hlen : (c :: s).length - ((c :: s).dropWhile isWord).length =
      ((c :: s).takeWhile isWord).length := by
    have hsum := congrArg List.length happ
    rw [List.length_append] at hsum
    omega
  have htext : (⟨c :: s, (c :: s).dropWhile isWord⟩ : Span).text =
      (c :: s).takeWhile isWord := by
    show (c :: s).take ((c :: s).length - _) = _
    rw [hlen]
    have htake : ((c :: s).takeWhile isWord ++ (c :: s).dropWhile isWord).take
        ((c :: s).takeWhile isWord).length = (c :: s).takeWhile isWord := List.take_left
    rwa [happ] at htake
  have hcons : (c :: s).takeWhile isWord = c :: s.takeWhile isWord := by
    rw [List.takeWhile_cons, if_pos hc]
  refine ⟨htext.trans hcons, ?_⟩
  exact
    { suffix := List.suffix_refl _
      split := by rw [htext]; exact happ.symm
      nonempty := by rw [htext, hcons]; exact List.cons_ne_nil _ _
      chars := fun d hd => by
        rw [htext] at hd
        exact List.mem_takeWhile_imp hd
      maximal := fun d r hd => dropWhile_cons hd }

/-- The lexemes of a text that starts with a word. -/
theorem lexemes_word (hc : isWord c = true) (s : List Char) :
    lexemes (c :: s) = .word (c :: s.takeWhile isWord) :: lexemes (s.dropWhile isWord) := by
  have hsp : isSpace c = false := by
    simp only [isWord, Bool.and_eq_true, Bool.not_eq_true'] at hc
    exact hc.1
  have hsym : c ∉ symbols := by
    simp only [isWord, Bool.and_eq_true, Bool.not_eq_true', List.contains_eq_mem,
      decide_eq_false_iff_not] at hc
    exact hc.2
  simp only [symbols, List.mem_cons, List.not_mem_nil, or_false, not_or] at hsym
  obtain ⟨h1, h2, h3, h4, h5, h6, h7⟩ := hsym
  have hnone : symbol? c = none := by
    unfold symbol?
    split <;> first | rfl | contradiction
  rw [lexemes]
  · simp only [hnone, hsp, Bool.false_eq_true, if_false]
  · exact fun _ hgt _ => h3 hgt
  · exact h3

theorem lexemes_symbol {l : Lexeme} (hl : symbol? c = some l) (s : List Char) :
    lexemes (c :: s) = l :: lexemes s := by
  have hgt : c ≠ '>' := by
    rintro rfl
    cases hl
  rw [lexemes]
  · simp only [hl]
  · exact fun _ h _ => hgt h
  · exact hgt

/-- The symbols with a lexeme of their own. -/
theorem symbol_cases (h : c = '|' ∨ c = '(' ∨ c = ')' ∨ c = ';' ∨ c = '&' ∨ c = '<') :
    ∃ l, symbol? c = some l ∧ l.code = c ∧ l.lead = some c ∧ ∀ w, l ≠ .word w := by
  rcases h with rfl | rfl | rfl | rfl | rfl | rfl <;>
    exact ⟨_, rfl, rfl, rfl, fun _ h => by cases h⟩

/-- Neither a space nor a symbol. -/
theorem isWord_of_ne (hsp : isSpace c = false)
    (hsym : ¬ (c = '|' ∨ c = '(' ∨ c = ')' ∨ c = ';' ∨ c = '&' ∨ c = '<')) (hgt : c ≠ '>') :
    isWord c = true := by
  have hno : symbols.contains c = false := by
    simp only [not_or] at hsym
    simp [symbols, hsym, hgt]
  rw [isWord, hno]
  simpa [isSpace] using hsp

/-- What `gettoken` does to the lexemes. -/
theorem gettoken_spec (s : Ptr) :
    (lexemes s = [] ∧ (gettoken s).ret = '\x00' ∧ (gettoken s).s = []) ∨
    ∃ l, lexemes s = l :: lexemes (gettoken s).s ∧ (gettoken s).ret = l.code ∧
      (gettoken s).s <:+ s ∧ (gettoken s).s.length < s.length ∧
      ∀ w, l = .word w → (gettoken s).w.text = w ∧ (gettoken s).w.Valid s := by
  have hsuf := skip_suffix s
  rw [← lexemes_skip s]
  unfold gettoken
  cases hq : skip s with
  | nil => exact Or.inl ⟨by simp [lexemes], rfl, rfl⟩
  | cons c r =>
    rw [hq] at hsuf
    have hlen := hsuf.length_le
    rw [List.length_cons] at hlen
    -- what is left is what follows the token, without white space
    have hdone : ∀ {r' : Ptr}, r' <:+ r → skip r' <:+ s ∧ (skip r').length < s.length := by
      intro r' hr'
      have hrest := (skip_suffix r').trans hr'
      refine ⟨hrest.trans ((List.suffix_cons c r).trans hsuf), ?_⟩
      have hle := hrest.length_le
      omega
    refine Or.inr ?_
    by_cases hsym : c = '|' ∨ c = '(' ∨ c = ')' ∨ c = ';' ∨ c = '&' ∨ c = '<'
    · simp only [hsym, if_true, lexemes_skip]
      obtain ⟨l, hl, hcode, _, hword⟩ := symbol_cases hsym
      obtain ⟨hs1, hs2⟩ := hdone (List.suffix_refl r)
      exact ⟨l, lexemes_symbol hl r, hcode.symm, hs1, hs2, fun w hw => absurd hw (hword w)⟩
    · by_cases hgt : c = '>'
      · subst hgt
        simp only [hsym, if_false, if_true]
        split
        · next r' =>
          obtain ⟨hs1, hs2⟩ := hdone (List.suffix_cons _ r')
          exact ⟨.gtgt, by rw [lexemes, lexemes_skip], rfl, hs1, hs2, fun w hw => by cases hw⟩
        · next hno =>
          obtain ⟨hs1, hs2⟩ := hdone (List.suffix_refl r)
          refine ⟨.gt, ?_, rfl, hs1, hs2, fun w hw => by cases hw⟩
          rw [lexemes, lexemes_skip]
          exact fun r' hr' => hno r' hr'
      · have hw := isWord_of_ne (dropWhile_cons hq) hsym hgt
        simp only [hsym, hgt, if_false]
        obtain ⟨htext, hvalid⟩ := valid_word (s := r) hw
        have hdrop : (c :: r).dropWhile isWord = r.dropWhile isWord := by
          rw [List.dropWhile_cons, if_pos hw]
        obtain ⟨hs1, hs2⟩ := hdone (List.dropWhile_suffix isWord)
        rw [← hdrop] at hs1 hs2
        refine ⟨.word (c :: r.takeWhile isWord), ?_, rfl, hs1, hs2, fun w hw' => ?_⟩
        · rw [lexemes_word hw, lexemes_skip, hdrop]
        · cases hw'
          exact ⟨htext, hvalid.mono hsuf⟩

/-- Where there is a character that is not white space there is a lexeme, and
    it starts with that character if it is a symbol. -/
theorem lexemes_of_skip {s r : Ptr} (hq : skip s = c :: r) :
    ∃ l ls, lexemes s = l :: ls ∧ (l.lead = some c ∨ (l.lead = none ∧ c ∉ symbols)) := by
  rw [← lexemes_skip s, hq]
  by_cases hsym : c = '|' ∨ c = '(' ∨ c = ')' ∨ c = ';' ∨ c = '&' ∨ c = '<'
  · obtain ⟨l, hl, _, hlead, _⟩ := symbol_cases hsym
    exact ⟨l, _, lexemes_symbol hl r, Or.inl hlead⟩
  · by_cases hgt : c = '>'
    · subst hgt
      rcases r with _ | ⟨d, r⟩
      · exact ⟨.gt, _, by rw [lexemes]; simp, Or.inl rfl⟩
      · by_cases hd : d = '>'
        · subst hd
          exact ⟨.gtgt, _, by rw [lexemes], Or.inl rfl⟩
        · refine ⟨.gt, lexemes (d :: r), ?_, Or.inl rfl⟩
          rw [lexemes]
          simp [hd]
    · have hw := isWord_of_ne (dropWhile_cons hq) hsym hgt
      refine ⟨_, _, lexemes_word hw r, Or.inr ⟨rfl, ?_⟩⟩
      simp only [isWord, Bool.and_eq_true, Bool.not_eq_true', List.contains_eq_mem,
        decide_eq_false_iff_not] at hw
      exact hw.2

/-- `peek` moves over white space only. -/
theorem peek_spec (s : Ptr) (toks : List Char) :
    lexemes (peek s toks).2 = lexemes s ∧ (peek s toks).2 <:+ s :=
  ⟨lexemes_skip s, skip_suffix s⟩

/-- `peek` looks at the first lexeme. -/
theorem peek_iff (s : Ptr) {toks : List Char} (ht : toks ⊆ symbols) :
    (peek s toks).1 = true ↔ ∃ l ls c, lexemes s = l :: ls ∧ l.lead = some c ∧ c ∈ toks := by
  unfold peek
  cases hq : skip s with
  | nil =>
    rw [← lexemes_skip s, hq]
    simp [lexemes]
  | cons c r =>
    simp only [List.contains_eq_mem, decide_eq_true_eq]
    obtain ⟨l, ls, hlex, hl⟩ := lexemes_of_skip hq
    constructor
    · intro hc
      rcases hl with hl | ⟨_, hno⟩
      · exact ⟨l, ls, c, hlex, hl, hc⟩
      · exact absurd (ht hc) hno
    · rintro ⟨l', ls', c', hlex', hl', hc'⟩
      rw [hlex] at hlex'
      cases hlex'
      rcases hl with hl | ⟨hl, _⟩
      · rw [hl] at hl'
        cases hl'
        exact hc'
      · rw [hl] at hl'
        cases hl'

end Xv6.Shell
