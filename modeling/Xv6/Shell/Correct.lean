import Xv6.Shell.Complete

/-! # The Parser Accepts Exactly the Grammar

    The fuel `parsecmd` starts with suffices, because every cycle of calls
    passes over a character; `nulterminate` leaves every string as it was
    read. With soundness and completeness this makes `parsecmd` a decision
    procedure for the grammar.
-/

namespace Xv6.Shell

/-! ### Termination -/

theorem bind_ne_fuel {α β : Type} {x : Except ParseError α} {f : α → Except ParseError β}
    (hx : x ≠ .error .fuel) (hf : ∀ a, x = .ok a → f a ≠ .error .fuel) :
    x >>= f ≠ .error .fuel := by
  cases x with
  | error e =>
    intro h
    cases h
    exact hx rfl
  | ok a => exact hf a rfl

theorem parseredirs_fuel (n : Nat) : ∀ {s : Ptr}, s.length < n →
    parseredirs n s ≠ .error .fuel := by
  induction n with
  | zero =>
    intro s hlen
    omega
  | succ n ih =>
    intro s hlen
    rw [parseredirs]
    rcases peek_cases s ['<', '>'] (by decide) with
      ⟨s₁, l, ls₁, c, hp, hr, hlex, _⟩ | ⟨s₁, hp, _⟩
    · simp only [hp]
      split
      · simp
      · next hret =>
        obtain ⟨_, _, hlt, _⟩ := gettoken_symbol hlex
        obtain ⟨_, hlt'⟩ := gettoken_word (not_not.mp hret)
        have hle := hr.suffix.length_le
        exact bind_ne_fuel (ih (by omega)) (by simp [pure, Except.pure])
    · simp only [hp]
      simp

theorem backLoop_fuel (n : Nat) : ∀ {cmd : Cmd Span} {s : Ptr}, s.length < n →
    backLoop n cmd s ≠ .error .fuel := by
  induction n with
  | zero =>
    intro cmd s hlen
    omega
  | succ n ih =>
    intro cmd s hlen
    rw [backLoop]
    rcases peek_cases s ['&'] (by decide) with ⟨s₁, l, ls₁, c, hp, hr, hlex, _⟩ | ⟨s₁, hp, _⟩
    · simp only [hp]
      obtain ⟨_, _, hlt, _⟩ := gettoken_symbol hlex
      have hle := hr.suffix.length_le
      exact ih (by omega)
    · simp only [hp]
      simp

theorem argLoop_fuel (n : Nat) : ∀ {argc : Nat} {s : Ptr}, s.length < n →
    argLoop n argc s ≠ .error .fuel := by
  induction n with
  | zero =>
    intro argc s hlen
    omega
  | succ n ih =>
    intro argc s hlen
    rw [argLoop]
    rcases peek_cases s ['|', ')', '&', ';'] (by decide) with
      ⟨s₁, l, ls₁, c, hp, _⟩ | ⟨s₁, hp, hr, _⟩
    · simp only [hp]
      simp
    · simp only [hp]
      split
      · simp
      · split
        · simp
        · next hword =>
          split
          · simp
          · obtain ⟨_, hlt⟩ := gettoken_word (not_not.mp hword)
            have hle := hr.suffix.length_le
            refine bind_ne_fuel (parseredirs_fuel n (by omega)) (fun a ha => ?_)
            obtain ⟨ls, hr', _⟩ := parseredirs_sound n ha
            have hle' := hr'.suffix.length_le
            exact bind_ne_fuel (ih (by omega)) (by simp [pure, Except.pure])

/-- From a line to the line in its first block there are four calls, and a
    character less. -/
structure FuelAt (n : Nat) : Prop where
  line : ∀ {s : Ptr}, 4 * s.length + 4 ≤ n → parseline n s ≠ .error .fuel
  pipe : ∀ {s : Ptr}, 4 * s.length + 3 ≤ n → parsepipe n s ≠ .error .fuel
  exec : ∀ {s : Ptr}, 4 * s.length + 2 ≤ n → parseexec n s ≠ .error .fuel
  block : ∀ {s : Ptr}, 4 * s.length + 1 ≤ n → parseblock n s ≠ .error .fuel

namespace FuelAt

variable {n : Nat} {s : Ptr}

theorem line_succ (ih : FuelAt n) (hlen : 4 * s.length + 4 ≤ n + 1) :
    parseline (n + 1) s ≠ .error .fuel := by
  rw [parseline]
  refine bind_ne_fuel (ih.pipe (by omega)) (fun a ha => ?_)
  obtain ⟨_, hr₁, _⟩ := (soundAt n).pipe ha
  have hle₁ := hr₁.suffix.length_le
  refine bind_ne_fuel (backLoop_fuel n (by omega)) (fun b hb => ?_)
  obtain ⟨_, _, hr₂⟩ := backLoop_sound n hb
  have hle₂ := hr₂.suffix.length_le
  rcases peek_cases b.2 [';'] (by decide) with ⟨s₁, l, ls₁, c, hp, hr, hlex, _⟩ | ⟨s₁, hp, _⟩
  · simp only [hp]
    obtain ⟨_, _, hlt, _⟩ := gettoken_symbol hlex
    have hle := hr.suffix.length_le
    exact bind_ne_fuel (ih.line (by omega)) (by simp [pure, Except.pure])
  · simp only [hp]
    simp [pure, Except.pure]

theorem pipe_succ (ih : FuelAt n) (hlen : 4 * s.length + 3 ≤ n + 1) :
    parsepipe (n + 1) s ≠ .error .fuel := by
  rw [parsepipe]
  refine bind_ne_fuel (ih.exec (by omega)) (fun a ha => ?_)
  obtain ⟨_, hr₁, _⟩ := (soundAt n).exec ha
  have hle₁ := hr₁.suffix.length_le
  rcases peek_cases a.2 ['|'] (by decide) with ⟨s₁, l, ls₁, c, hp, hr, hlex, _⟩ | ⟨s₁, hp, _⟩
  · simp only [hp]
    obtain ⟨_, _, hlt, _⟩ := gettoken_symbol hlex
    have hle := hr.suffix.length_le
    exact bind_ne_fuel (ih.pipe (by omega)) (by simp [pure, Except.pure])
  · simp only [hp]
    simp [pure, Except.pure]

theorem exec_succ (ih : FuelAt n) (hlen : 4 * s.length + 2 ≤ n + 1) :
    parseexec (n + 1) s ≠ .error .fuel := by
  rw [parseexec]
  rcases peek_cases s ['('] (by decide) with ⟨s₁, l, ls₁, c, hp, hr, _⟩ | ⟨s₁, hp, hr, _⟩
  · simp only [hp]
    have hle := hr.suffix.length_le
    exact ih.block (by omega)
  · simp only [hp]
    have hle := hr.suffix.length_le
    refine bind_ne_fuel (parseredirs_fuel n (by omega)) (fun a ha => ?_)
    obtain ⟨_, hr₁, _⟩ := parseredirs_sound n ha
    have hle₁ := hr₁.suffix.length_le
    exact bind_ne_fuel (argLoop_fuel n (by omega)) (by simp [pure, Except.pure])

theorem block_succ (ih : FuelAt n) (hlen : 4 * s.length + 1 ≤ n + 1) :
    parseblock (n + 1) s ≠ .error .fuel := by
  rw [parseblock]
  rcases peek_cases s ['('] (by decide) with ⟨s₁, l, ls₁, c, hp, hr, hlex, _⟩ | ⟨s₁, hp, _⟩
  · simp only [hp]
    obtain ⟨_, _, hlt, _⟩ := gettoken_symbol hlex
    have hle := hr.suffix.length_le
    refine bind_ne_fuel (ih.line (by omega)) (fun a ha => ?_)
    obtain ⟨_, hr₁, _⟩ := (soundAt n).line ha
    have hle₁ := hr₁.suffix.length_le
    rcases peek_cases a.2 [')'] (by decide) with
      ⟨s₂, l₂, ls₂, c₂, hp₂, hr₂, hlex₂, _⟩ | ⟨s₂, hp₂, _⟩
    · simp only [hp₂]
      obtain ⟨_, _, hlt₂, _⟩ := gettoken_symbol hlex₂
      have hle₂ := hr₂.suffix.length_le
      exact bind_ne_fuel (parseredirs_fuel n (by omega)) (by simp [pure, Except.pure])
    · simp only [hp₂]
      simp
  · simp only [hp]
    simp

end FuelAt

theorem fuelAt (n : Nat) : FuelAt n := by
  induction n with
  | zero =>
    exact
      { line := fun h => by omega
        pipe := fun h => by omega
        exec := fun h => by omega
        block := fun h => by omega }
  | succ n ih => exact ⟨ih.line_succ, ih.pipe_succ, ih.exec_succ, ih.block_succ⟩

/-! ### The strings -/

theorem map_congr {V W : Type} {f g : V → W} (cmd : Cmd V) (h : ∀ w ∈ cmd.words, f w = g w) :
    cmd.map f = cmd.map g := by
  induction cmd with
  | EXEC argv => exact congrArg Cmd.EXEC (List.map_congr_left h)
  | REDIR cmd file mode fd ih =>
    have hcmd := ih (fun w hw => h w (List.mem_append_left _ hw))
    have hfile := h file (List.mem_append_right _ List.mem_cons_self)
    rw [Cmd.map, Cmd.map, hcmd, hfile]
  | PIPE left right ihl ihr =>
    have hl := ihl (fun w hw => h w (List.mem_append_left _ hw))
    have hr := ihr (fun w hw => h w (List.mem_append_right _ hw))
    rw [Cmd.map, Cmd.map, hl, hr]
  | LIST left right ihl ihr =>
    have hl := ihl (fun w hw => h w (List.mem_append_left _ hw))
    have hr := ihr (fun w hw => h w (List.mem_append_right _ hw))
    rw [Cmd.map, Cmd.map, hl, hr]
  | BACK cmd ih =>
    rw [Cmd.map, Cmd.map, ih h]

/-- A string ends at the first NUL after it; the others are written where no
    word goes on. -/
theorem cstring_append {nuls : List Ptr} {eq : Ptr} (heq : eq ∈ nuls)
    (hnuls : ∀ p ∈ nuls, ∀ c s, p = c :: s → isWord c = false) (xs : List Char)
    (hxs : ∀ c ∈ xs, isWord c = true) : cstring nuls (xs ++ eq) = xs := by
  induction xs with
  | nil =>
    cases eq with
    | nil => rfl
    | cons c s => simp [cstring, heq]
  | cons c xs ih =>
    have hno : ¬ (c :: (xs ++ eq)) ∈ nuls := by
      intro hmem
      have hfalse := hnuls _ hmem c (xs ++ eq) rfl
      rw [hxs c List.mem_cons_self] at hfalse
      cases hfalse
    rw [List.cons_append, cstring, List.contains_eq_mem, decide_eq_false hno]
    simp only [Bool.false_eq_true, if_false]
    rw [ih (fun d hd => hxs d (List.mem_cons_of_mem _ hd))]

/-- `nulterminate` ends no string early. -/
theorem nulterminate_eq {line : Ptr} (cmd : Cmd Span) (h : ∀ w ∈ cmd.words, w.Valid line) :
    nulterminate cmd = cmd.map Span.text := by
  refine map_congr cmd (fun w hw => ?_)
  have hvalid := h w hw
  rw [hvalid.split]
  refine cstring_append (List.mem_map_of_mem hw) ?_ _ hvalid.chars
  intro p hp
  obtain ⟨v, hv, rfl⟩ := List.mem_map.mp hp
  exact (h v hv).maximal

/-! ### `parsecmd` -/

/-- `parsecmd` returns when `parseline` has read the whole line. -/
theorem parsecmd_ok {buf : List Char} {t : Cmd (List Char)} :
    parsecmd buf = .ok t ↔
      ∃ cmd s', parseline (4 * (buf.takeWhile (· ≠ '\x00')).length + 4)
        (buf.takeWhile (· ≠ '\x00')) = .ok (cmd, s') ∧ lexemes s' = [] ∧
        cmd.map Span.text = t := by
  unfold parsecmd
  constructor
  · intro h
    obtain ⟨⟨cmd, s'⟩, hline, h⟩ := bind_ok h
    obtain ⟨ls, hr, _⟩ := (soundAt _).line hline
    simp only [peek] at h
    split at h
    · next hskip =>
      simp only [pure, Except.pure, Except.ok.injEq] at h
      refine ⟨cmd, s', hline, ?_, ?_⟩
      · have hnil : skip s' = [] := (Prod.mk.inj hskip).2
        rw [← lexemes_skip, hnil]
        simp [lexemes]
      · rw [← h, nulterminate_eq cmd hr.valid]
    · cases h
  · rintro ⟨cmd, s', hline, hnil, rfl⟩
    obtain ⟨ls, hr, _⟩ := (soundAt _).line hline
    have hskip : skip s' = [] := by
      cases hq : skip s' with
      | nil => rfl
      | cons c r =>
        obtain ⟨l, ls, hlex, _⟩ := lexemes_of_skip hq
        rw [hnil] at hlex
        cases hlex
    simp only [hline, bind, Except.bind, peek, hskip]
    rw [nulterminate_eq cmd hr.valid]
    rfl

/-- **The parser accepts exactly its grammar.** On every buffer `parsecmd`
    returns a tree or reports an error of the line, and it returns the tree
    `t` if and only if the lexemes of the line derive `t`. -/
theorem parsecmd_iff (buf : List Char) :
    ((∃ t, parsecmd buf = .ok t) ∨ ∃ e, e ≠ .fuel ∧ parsecmd buf = .error e) ∧
    ∀ t, parsecmd buf = .ok t ↔ Derives .line (lexemes (buf.takeWhile (· ≠ '\x00'))) t := by
  have hfuel := (fuelAt _).line (s := buf.takeWhile (· ≠ '\x00')) (Nat.le_refl _)
  refine ⟨?_, fun t => ⟨fun h => ?_, fun h => ?_⟩⟩
  · have hne : parsecmd buf ≠ .error .fuel := by
      unfold parsecmd
      refine bind_ne_fuel hfuel (fun a _ h => ?_)
      obtain ⟨cmd, s⟩ := a
      simp only at h
      split at h <;> cases h
    cases hp : parsecmd buf with
    | ok t => exact Or.inl ⟨t, rfl⟩
    | error e =>
      refine Or.inr ⟨e, fun he => hne ?_, rfl⟩
      rw [hp, he]
  · obtain ⟨cmd, s', hline, hnil, rfl⟩ := parsecmd_ok.mp h
    obtain ⟨ls, hr, hder⟩ := (soundAt _).line hline
    rw [hr.split, hnil, List.append_nil]
    exact hder
  · rcases parse_complete h (4 * (buf.takeWhile (· ≠ '\x00')).length + 4)
        (buf.takeWhile (· ≠ '\x00')) [] (List.append_nil _).symm (fun _ _ hl => by cases hl) with
      hout | ⟨cmd, s', hline, hcmd, hs'⟩
    · exact absurd hout hfuel
    · exact parsecmd_ok.mpr ⟨cmd, s', hline, hs', hcmd⟩

/-- Redirections wrap in reading order around all the words. -/
example : parsecmd "cat < a b > c;".toList =
    .ok (.LIST (.REDIR (.REDIR (.EXEC ["cat".toList, "b".toList]) "a".toList 0 0)
      "c".toList 0x201 1) (.EXEC [])) := by
  decide +kernel

end Xv6.Shell
