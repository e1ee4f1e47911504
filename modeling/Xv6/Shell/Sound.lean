import Xv6.Shell.Grammar

/-! # The Parser Returns What It Has Read

    Soundness: the lexemes between the cursor before and after a call derive
    the tree the call returns. The induction is on the fuel, over the four
    functions at once, and carries `Reads`: how far the cursor has moved,
    over which lexemes, and with which words.
-/

namespace Xv6.Shell

/-! ### Reading -/

/-- Moving the cursor from `s` to `s'` reads the lexemes `ls` with the words
    `ws`. -/
structure Reads (s : Ptr) (ls : List Lexeme) (ws : List Span) (s' : Ptr) : Prop where
  suffix : s' <:+ s
  split : lexemes s = ls ++ lexemes s'
  valid : ∀ w ∈ ws, w.Valid s

namespace Reads

variable {s s' s'' : Ptr} {ls ls' : List Lexeme} {ws ws' : List Span} {W : Type}

theorem trans (h : Reads s ls ws s') (h' : Reads s' ls' ws' s'') :
    Reads s (ls ++ ls') (ws ++ ws') s'' where
  suffix := h'.suffix.trans h.suffix
  split := by rw [h.split, h'.split, List.append_assoc]
  valid := fun w hw => by
    rcases List.mem_append.mp hw with hw | hw
    · exact h.valid w hw
    · exact (h'.valid w hw).mono h.suffix

theorem mono (h : Reads s ls ws s') (hw : ∀ w ∈ ws', w ∈ ws) : Reads s ls ws' s' :=
  { h with valid := fun w hmem => h.valid w (hw w hmem) }

theorem cast (h : Reads s ls ws s') (hls : ls = ls') : Reads s ls' ws s' := hls ▸ h

theorem peek (s : Ptr) (toks : List Char) : Reads s [] [] (peek s toks).2 where
  suffix := (peek_spec s toks).2
  split := (peek_spec s toks).1.symm
  valid := fun _ hw => by cases hw

end Reads

/-- `gettoken` at the end of the line, or over one lexeme. -/
theorem gettoken_reads (s : Ptr) :
    (lexemes s = [] ∧ (gettoken s).ret = '\x00' ∧ Reads s [] [] (gettoken s).s) ∨
    ∃ l, Reads s [l] [] (gettoken s).s ∧ (gettoken s).ret = l.code ∧
      (gettoken s).s.length < s.length := by
  rcases gettoken_spec s with ⟨hnil, hret, hend⟩ | ⟨l, hlex, hret, hsuf, hlen, _⟩
  · refine Or.inl ⟨hnil, hret, ?_⟩
    exact ⟨hend ▸ List.nil_suffix, by rw [hend, hnil]; simp [lexemes], fun _ hw => by cases hw⟩
  · exact Or.inr ⟨l, ⟨hsuf, hlex, fun _ hw => by cases hw⟩, hret, hlen⟩

/-- `gettoken` over a word. -/
theorem gettoken_word {s : Ptr} (h : (gettoken s).ret = 'a') :
    Reads s [.word (gettoken s).w.text] [(gettoken s).w] (gettoken s).s ∧
    (gettoken s).s.length < s.length := by
  rcases gettoken_spec s with ⟨_, hret, _⟩ | ⟨l, hlex, hret, hsuf, hlen, hword⟩
  · rw [hret] at h
    cases h
  · rw [hret] at h
    cases l with
    | word w =>
      obtain ⟨htext, hvalid⟩ := hword w rfl
      refine ⟨⟨hsuf, by rw [htext]; exact hlex, fun v hv => ?_⟩, hlen⟩
      rw [List.mem_singleton.mp hv]
      exact hvalid
    | _ => cases h

/-- A symbol that `peek` has seen. -/
theorem gettoken_symbol {s : Ptr} {l : Lexeme} {ls : List Lexeme} (h : lexemes s = l :: ls) :
    Reads s [l] [] (gettoken s).s ∧ (gettoken s).ret = l.code ∧
    (gettoken s).s.length < s.length ∧ lexemes (gettoken s).s = ls := by
  rcases gettoken_reads s with ⟨hnil, _⟩ | ⟨l', hr, hret, hlen⟩
  · rw [hnil] at h
    cases h
  · have hsplit := hr.split
    rw [h] at hsplit
    cases hsplit
    exact ⟨hr, hret, hlen, rfl⟩

/-- What `peek` returns, and where it leaves the cursor. -/
theorem peek_cases (s : Ptr) (toks : List Char) (ht : toks ⊆ symbols) :
    (∃ s' l ls c, peek s toks = (true, s') ∧ Reads s [] [] s' ∧ lexemes s' = l :: ls ∧
      l.lead = some c ∧ c ∈ toks) ∨
    (∃ s', peek s toks = (false, s') ∧ Reads s [] [] s' ∧
      ∀ l ls c, lexemes s' = l :: ls → l.lead = some c → c ∉ toks) := by
  have hr := Reads.peek s toks
  have hiff := peek_iff s ht
  have hsame : lexemes (peek s toks).2 = lexemes s := (peek_spec s toks).1
  rcases hp : peek s toks with ⟨b, s'⟩
  rw [hp] at hr hiff hsame
  cases b with
  | true =>
    obtain ⟨l, ls, c, hlex, hlead, hc⟩ := hiff.mp rfl
    exact Or.inl ⟨s', l, ls, c, rfl, hr, hsame.trans hlex, hlead, hc⟩
  | false =>
    refine Or.inr ⟨s', rfl, hr, fun l ls c hlex hlead hc => ?_⟩
    have htrue := hiff.mpr ⟨l, ls, c, hsame.symm.trans hlex, hlead, hc⟩
    cases htrue

theorem bind_ok {α β : Type} {x : Except ParseError α} {f : α → Except ParseError β} {b : β}
    (h : x >>= f = .ok b) : ∃ a, x = .ok a ∧ f a = .ok b := by
  cases x with
  | error e => cases h
  | ok a => exact ⟨a, rfl, h⟩

/-! ### Soundness -/

def Redir.map {V W : Type} (f : V → W) (r : Redir V) : Redir W := ⟨f r.file, r.mode, r.fd⟩

theorem redirOf_file (tok : Char) (w : W) : (redirOf tok w).file = w := by
  unfold redirOf
  split <;> rfl

theorem parseredirs_sound (n : Nat) : ∀ {s s' : Ptr} {rs : List (Redir Span)},
    parseredirs n s = .ok (rs, s') →
    ∃ ls, Reads s ls (rs.map Redir.file) s' ∧ Redirs ls (rs.map (Redir.map Span.text)) := by
  induction n with
  | zero =>
    intro s s' rs h
    cases h
  | succ n ih =>
    intro s s' rs h
    rw [parseredirs] at h
    rcases peek_cases s ['<', '>'] (by decide) with
      ⟨s₁, l, ls₁, c, hp, hr, hlex, hlead, hc⟩ | ⟨s₁, hp, hr, _⟩
    · simp only [hp] at h
      split at h
      · cases h
      · next hret =>
        obtain ⟨⟨rs₁, s₂⟩, hrec, heq⟩ := bind_ok h
        cases heq
        obtain ⟨hop, hcode, _, _⟩ := gettoken_symbol hlex
        obtain ⟨hfile, _⟩ := gettoken_word (not_not.mp hret)
        obtain ⟨ls₂, hrest, hder⟩ := ih hrec
        rw [List.map_cons, List.map_cons, redirOf_file, hcode]
        refine ⟨l :: .word (gettoken (gettoken s₁).s).w.text :: ls₂,
          (hr.trans hop).trans (hfile.trans hrest), ?_⟩
        simp only [List.mem_cons, List.not_mem_nil, or_false] at hc
        -- the lexeme that starts with one of the two characters
        cases l with
        | lt => exact .input _ hder
        | gt => exact .output _ hder
        | gtgt => exact .append _ hder
        | _ => rcases hc with rfl | rfl <;> cases hlead
    · simp only [hp] at h
      cases h
      exact ⟨[], hr, .nil⟩

theorem backLoop_sound (n : Nat) : ∀ {cmd cmd' : Cmd Span} {s s' : Ptr},
    backLoop n cmd s = .ok (cmd', s') →
    ∃ k, cmd' = backs k cmd ∧ Reads s (List.replicate k .amp) [] s' := by
  induction n with
  | zero =>
    intro cmd cmd' s s' h
    cases h
  | succ n ih =>
    intro cmd cmd' s s' h
    rw [backLoop] at h
    rcases peek_cases s ['&'] (by decide) with
      ⟨s₁, l, ls₁, c, hp, hr, hlex, hlead, hc⟩ | ⟨s₁, hp, hr, _⟩
    · simp only [hp] at h
      obtain ⟨hop, _⟩ := gettoken_symbol hlex
      obtain ⟨k, rfl, hrest⟩ := ih h
      rw [List.mem_singleton.mp hc] at hlead
      cases l <;> cases hlead
      exact ⟨k + 1, rfl, (hr.trans hop).trans hrest⟩
    · simp only [hp] at h
      cases h
      exact ⟨0, rfl, hr⟩

theorem argLoop_sound (n : Nat) : ∀ {argc : Nat} {s s' : Ptr} {argv : List Span}
    {rs : List (Redir Span)}, argLoop n argc s = .ok ((argv, rs), s') →
    ∃ ls, Reads s ls (argv ++ rs.map Redir.file) s' ∧
      Args ls (argv.map Span.text) (rs.map (Redir.map Span.text)) ∧
      (argv = [] ∨ argc + argv.length < MAXARGS) := by
  induction n with
  | zero =>
    intro argc s s' argv rs h
    cases h
  | succ n ih =>
    intro argc s s' argv rs h
    rw [argLoop] at h
    rcases peek_cases s ['|', ')', '&', ';'] (by decide) with
      ⟨s₁, l, ls₁, c, hp, hr, _⟩ | ⟨s₁, hp, hr, _⟩
    · simp only [hp] at h
      cases h
      exact ⟨[], hr, .nil, Or.inl rfl⟩
    · simp only [hp] at h
      split at h
      · next hend =>
        cases h
        rcases gettoken_reads s₁ with ⟨_, _, hr'⟩ | ⟨l, _, hret, _⟩
        · exact ⟨[], hr.trans hr', .nil, Or.inl rfl⟩
        · rw [hret] at hend
          cases l <;> cases hend
      · split at h
        · cases h
        · next hword =>
          split at h
          · cases h
          · next hargc =>
            obtain ⟨⟨rs₁, s₂⟩, hredirs, h⟩ := bind_ok h
            obtain ⟨⟨⟨argv₁, rs₂⟩, s₃⟩, hrec, h⟩ := bind_ok h
            simp only [pure, Except.pure, Except.ok.injEq, Prod.mk.injEq] at h
            obtain ⟨⟨rfl, rfl⟩, rfl⟩ := h
            obtain ⟨hw, _⟩ := gettoken_word (not_not.mp hword)
            obtain ⟨ls₁, hr₁, hder₁⟩ := parseredirs_sound n hredirs
            obtain ⟨ls₂, hr₂, hder₂, hcount⟩ := ih hrec
            refine ⟨.word (gettoken s₁).w.text :: (ls₁ ++ ls₂),
              ((hr.trans hw).trans (hr₁.trans hr₂)).mono ?_, ?_, ?_⟩
            · intro w hmem
              simp only [List.map_append, List.cons_append, List.mem_cons, List.mem_append] at hmem
              simp only [List.nil_append, List.cons_append, List.mem_cons, List.mem_append]
              tauto
            · rw [List.map_append]
              exact .cons _ hder₁ hder₂
            · refine Or.inr ?_
              rw [List.length_cons]
              rcases hcount with rfl | hcount
              · rw [List.length_nil]
                omega
              · omega

/-! ### Commands under `map` and `words` -/

theorem map_wrap {V : Type} (f : V → W) (cmd : Cmd V) (rs : List (Redir V)) :
    (wrap cmd rs).map f = wrap (cmd.map f) (rs.map (Redir.map f)) := by
  induction rs generalizing cmd with
  | nil => rfl
  | cons r rs ih => exact ih (.REDIR cmd r.file r.mode r.fd)

theorem words_wrap (cmd : Cmd W) (rs : List (Redir W)) :
    (wrap cmd rs).words = cmd.words ++ rs.map Redir.file := by
  induction rs generalizing cmd with
  | nil => exact (List.append_nil _).symm
  | cons r rs ih =>
    refine (ih (.REDIR cmd r.file r.mode r.fd)).trans ?_
    simp [Cmd.words]

theorem map_backs {V : Type} (f : V → W) (k : Nat) (cmd : Cmd V) :
    (backs k cmd).map f = backs k (cmd.map f) := by
  induction k generalizing cmd with
  | zero => rfl
  | succ k ih => exact ih (.BACK cmd)

theorem words_backs (k : Nat) (cmd : Cmd W) : (backs k cmd).words = cmd.words := by
  induction k generalizing cmd with
  | zero => rfl
  | succ k ih => exact ih (.BACK cmd)

/-- The tree `cmd` stands for the lexemes between `s` and `s'`. -/
def Sound (p : Phrase) (s : Ptr) (cmd : Cmd Span) (s' : Ptr) : Prop :=
  ∃ ls, Reads s ls cmd.words s' ∧ Derives p ls (cmd.map Span.text)

/-- The four functions return sound trees. -/
structure SoundAt (n : Nat) : Prop where
  line : ∀ {s s' : Ptr} {cmd : Cmd Span}, parseline n s = .ok (cmd, s') → Sound .line s cmd s'
  pipe : ∀ {s s' : Ptr} {cmd : Cmd Span}, parsepipe n s = .ok (cmd, s') → Sound .pipe s cmd s'
  exec : ∀ {s s' : Ptr} {cmd : Cmd Span}, parseexec n s = .ok (cmd, s') → Sound .exec s cmd s'
  block : ∀ {s s' : Ptr} {cmd : Cmd Span}, parseblock n s = .ok (cmd, s') → Sound .exec s cmd s'

namespace SoundAt

variable {n : Nat} {s s' : Ptr} {cmd : Cmd Span}

theorem line_succ (ih : SoundAt n) (h : parseline (n + 1) s = .ok (cmd, s')) :
    Sound .line s cmd s' := by
  rw [parseline] at h
  obtain ⟨⟨cmd₁, s₁⟩, hpipe, h⟩ := bind_ok h
  obtain ⟨⟨cmd₂, s₂⟩, hback, h⟩ := bind_ok h
  obtain ⟨ls₁, hr₁, hder₁⟩ := ih.pipe hpipe
  obtain ⟨k, rfl, hr₂⟩ := backLoop_sound n hback
  rcases peek_cases s₂ [';'] (by decide) with
    ⟨s₃, l, ls₃, c, hp, hr₃, hlex, hlead, hc⟩ | ⟨s₃, hp, hr₃, _⟩
  · simp only [hp] at h
    obtain ⟨⟨right, s₄⟩, hright, h⟩ := bind_ok h
    cases h
    obtain ⟨ls₄, hr₄, hder₄⟩ := ih.line hright
    obtain ⟨hop, _⟩ := gettoken_symbol hlex
    rw [List.mem_singleton.mp hc] at hlead
    cases l <;> cases hlead
    refine ⟨ls₁ ++ List.replicate k .amp ++ .semi :: ls₄,
      (((hr₁.trans hr₂).trans (hr₃.trans hop)).trans hr₄).mono ?_ |>.cast ?_, ?_⟩
    · simp [Cmd.words, words_backs]
    · simp
    · rw [Cmd.map, map_backs]
      exact .seq k hder₁ hder₄
  · simp only [hp] at h
    cases h
    refine ⟨ls₁ ++ List.replicate k .amp, ((hr₁.trans hr₂).trans hr₃).mono ?_ |>.cast ?_, ?_⟩
    · simp [words_backs]
    · simp
    · rw [map_backs]
      exact .line k hder₁

theorem pipe_succ (ih : SoundAt n) (h : parsepipe (n + 1) s = .ok (cmd, s')) :
    Sound .pipe s cmd s' := by
  rw [parsepipe] at h
  obtain ⟨⟨cmd₁, s₁⟩, hexec, h⟩ := bind_ok h
  obtain ⟨ls₁, hr₁, hder₁⟩ := ih.exec hexec
  rcases peek_cases s₁ ['|'] (by decide) with
    ⟨s₂, l, ls₂, c, hp, hr₂, hlex, hlead, hc⟩ | ⟨s₂, hp, hr₂, _⟩
  · simp only [hp] at h
    obtain ⟨⟨right, s₃⟩, hright, h⟩ := bind_ok h
    cases h
    obtain ⟨ls₃, hr₃, hder₃⟩ := ih.pipe hright
    obtain ⟨hop, _⟩ := gettoken_symbol hlex
    rw [List.mem_singleton.mp hc] at hlead
    cases l <;> cases hlead
    refine ⟨ls₁ ++ .bar :: ls₃, ((hr₁.trans (hr₂.trans hop)).trans hr₃).mono ?_ |>.cast ?_, ?_⟩
    · simp [Cmd.words]
    · simp
    · exact .pipe hder₁ hder₃
  · simp only [hp] at h
    cases h
    refine ⟨ls₁, (hr₁.trans hr₂).mono ?_ |>.cast ?_, .exec hder₁⟩
    · simp
    · simp

theorem exec_succ (ih : SoundAt n) (h : parseexec (n + 1) s = .ok (cmd, s')) :
    Sound .exec s cmd s' := by
  rw [parseexec] at h
  rcases peek_cases s ['('] (by decide) with
    ⟨s₁, l, ls₁, c, hp, hr₁, _⟩ | ⟨s₁, hp, hr₁, _⟩
  · simp only [hp] at h
    obtain ⟨ls, hr, hder⟩ := ih.block h
    exact ⟨ls, hr₁.trans hr, hder⟩
  · simp only [hp] at h
    obtain ⟨⟨rs, s₂⟩, hredirs, h⟩ := bind_ok h
    obtain ⟨⟨⟨argv, rs'⟩, s₃⟩, hargs, h⟩ := bind_ok h
    simp only [pure, Except.pure, Except.ok.injEq, Prod.mk.injEq] at h
    obtain ⟨rfl, rfl⟩ := h
    obtain ⟨ls₂, hr₂, hder₂⟩ := parseredirs_sound n hredirs
    obtain ⟨ls₃, hr₃, hder₃, hcount⟩ := argLoop_sound n hargs
    refine ⟨ls₂ ++ ls₃, (hr₁.trans (hr₂.trans hr₃)).mono ?_, ?_⟩
    · intro w hw
      rw [words_wrap, Cmd.words] at hw
      simp only [List.map_append, List.mem_append, List.nil_append] at hw ⊢
      tauto
    · rw [map_wrap, List.map_append]
      refine .simple hder₂ hder₃ ?_
      rw [List.length_map]
      rcases hcount with rfl | hcount
      · decide
      · omega

theorem block_succ (ih : SoundAt n) (h : parseblock (n + 1) s = .ok (cmd, s')) :
    Sound .exec s cmd s' := by
  rw [parseblock] at h
  rcases peek_cases s ['('] (by decide) with
    ⟨s₁, l, ls₁, c, hp, hr₁, hlex, hlead, hc⟩ | ⟨s₁, hp, _⟩
  · simp only [hp] at h
    obtain ⟨⟨cmd₁, s₂⟩, hline, h⟩ := bind_ok h
    obtain ⟨ls₂, hr₂, hder₂⟩ := ih.line hline
    obtain ⟨hopen, _⟩ := gettoken_symbol hlex
    rw [List.mem_singleton.mp hc] at hlead
    cases l <;> cases hlead
    rcases peek_cases s₂ [')'] (by decide) with
      ⟨s₃, l, ls₃, c, hp₃, hr₃, hlex₃, hlead₃, hc₃⟩ | ⟨s₃, hp₃, _⟩
    · simp only [hp₃] at h
      obtain ⟨⟨rs, s₄⟩, hredirs, h⟩ := bind_ok h
      cases h
      obtain ⟨ls₄, hr₄, hder₄⟩ := parseredirs_sound n hredirs
      obtain ⟨hclose, _⟩ := gettoken_symbol hlex₃
      rw [List.mem_singleton.mp hc₃] at hlead₃
      cases l <;> cases hlead₃
      refine ⟨.lpar :: (ls₂ ++ .rpar :: ls₄),
        (((hr₁.trans hopen).trans hr₂).trans ((hr₃.trans hclose).trans hr₄)).mono ?_ |>.cast ?_, ?_⟩
      · simp [words_wrap]
      · simp
      · rw [map_wrap]
        exact .block hder₂ hder₄
    · simp only [hp₃] at h
      cases h
  · simp only [hp] at h
    cases h

end SoundAt

/-- **Soundness.** -/
theorem soundAt (n : Nat) : SoundAt n := by
  induction n with
  | zero =>
    exact
      { line := fun h => by cases h
        pipe := fun h => by cases h
        exec := fun h => by cases h
        block := fun h => by cases h }
  | succ n ih => exact ⟨ih.line_succ, ih.pipe_succ, ih.exec_succ, ih.block_succ⟩

end Xv6.Shell
