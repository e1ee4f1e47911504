import Xv6.Shell.Sound

/-! # The Parser Finds Every Derivation

    Completeness: on the lexemes of a phrase, followed by something that
    cannot continue it, the parser returns the tree of the phrase and stops
    there, unless it runs out of fuel. The induction is on the derivation;
    what may follow a phrase (`follow`) is what makes one lexeme of
    lookahead enough.
-/

namespace Xv6.Shell

variable {s : Ptr} {rest ls stops : List Lexeme} {rs : List (Redir (List Char))}

/-- A result that satisfies `P` with the lexemes `rest` left, unless the fuel
    has run out. -/
def Gives {α : Type} (r : Except ParseError (α × Ptr)) (P : α → Prop) (rest : List Lexeme) :
    Prop :=
  r = .error .fuel ∨ ∃ a s, r = .ok (a, s) ∧ P a ∧ lexemes s = rest

theorem Gives.ok {α : Type} {P : α → Prop} {a : α} (ha : P a) (hs : lexemes s = rest) :
    Gives (.ok (a, s)) P rest :=
  Or.inr ⟨a, s, rfl, ha, hs⟩

/-- A function that does nothing without fuel. -/
theorem Gives.fuel {α : Type} {P : α → Prop} {f : Nat → Except ParseError (α × Ptr)}
    (n : Nat) (hsucc : ∀ n, Gives (f (n + 1)) P rest) (hzero : f 0 = .error .fuel := by rfl) :
    Gives (f n) P rest := by
  cases n with
  | zero => exact Or.inl hzero
  | succ n => exact hsucc n

theorem Gives.bind {α β : Type} {r : Except ParseError (α × Ptr)} {P : α → Prop}
    {rest' : List Lexeme} {f : α × Ptr → Except ParseError (β × Ptr)} {Q : β → Prop}
    (h : Gives r P rest) (hf : ∀ a s, P a → lexemes s = rest → Gives (f (a, s)) Q rest') :
    Gives (r >>= f) Q rest' := by
  rcases h with rfl | ⟨a, s, rfl, ha, hs⟩
  · exact Or.inl rfl
  · exact hf a s ha hs

/-- The lexemes that may follow a phrase. -/
def follow : Phrase → List Lexeme
  | .line => [.rpar]
  | .pipe => [.rpar, .amp, .semi]
  | .exec => [.rpar, .amp, .semi, .bar]

/-- `rest` is empty or starts with one of `stops`. -/
def Ends (stops rest : List Lexeme) : Prop := ∀ l ls, rest = l :: ls → l ∈ stops

theorem peek_true (toks : List Char) {l : Lexeme} {c : Char} (ht : toks ⊆ symbols)
    (hlex : lexemes s = l :: ls) (hl : l.lead = some c) (hc : c ∈ toks) :
    ∃ s', peek s toks = (true, s') ∧ lexemes s' = l :: ls := by
  have hr := peek_spec s toks
  have hb := (peek_iff s ht).mpr ⟨l, ls, c, hlex, hl, hc⟩
  exact ⟨(peek s toks).2, Prod.ext hb rfl, hr.1.trans hlex⟩

theorem peek_false (s : Ptr) (toks : List Char) (ht : toks ⊆ symbols)
    (hno : ∀ l ls c, lexemes s = l :: ls → l.lead = some c → c ∉ toks) :
    ∃ s', peek s toks = (false, s') ∧ lexemes s' = lexemes s := by
  refine ⟨(peek s toks).2, Prod.ext ?_ rfl, (peek_spec s toks).1⟩
  cases hb : (peek s toks).1 with
  | false => rfl
  | true =>
    obtain ⟨l, ls, c, hlex, hl, hc⟩ := (peek_iff s ht).mp hb
    exact absurd hc (hno l ls c hlex hl)

/-- `gettoken` on a word. -/
theorem gettoken_of_word {w : List Char} (h : lexemes s = .word w :: ls) :
    (gettoken s).ret = 'a' ∧ (gettoken s).w.text = w ∧ lexemes (gettoken s).s = ls := by
  rcases gettoken_spec s with ⟨hnil, _⟩ | ⟨l, hlex, hret, _, _, hword⟩
  · rw [hnil] at h
    cases h
  · rw [h] at hlex
    cases hlex
    exact ⟨hret, (hword w rfl).1, rfl⟩

/-- One redirection and the rest. -/
theorem redir_complete {n : Nat} {op : Lexeme} {w : List Char}
    {r : Redir (List Char)} {c : Char}
    (hop : op.lead = some c) (hc : c ∈ ['<', '>']) (hr : redirOf op.code w = r)
    (hlex : lexemes s = op :: .word w :: ls)
    (hrest : ∀ s, lexemes s = ls →
      Gives (parseredirs n s) (fun rs' => rs'.map (Redir.map Span.text) = rs) rest) :
    Gives (parseredirs (n + 1) s) (fun rs' => rs'.map (Redir.map Span.text) = r :: rs) rest := by
  obtain ⟨s₁, hp, hlex₁⟩ := peek_true _ (by decide) hlex hop hc
  obtain ⟨_, hcode, _, hfile⟩ := gettoken_symbol hlex₁
  obtain ⟨hret, htext, hleft⟩ := gettoken_of_word hfile
  simp only [parseredirs, hp, hret, ne_eq, not_true_eq_false, if_false]
  refine (hrest _ hleft).bind (fun rs₁ s₂ hrs hs₂ => .ok ?_ hs₂)
  have hmap : (redirOf (gettoken s₁).ret (gettoken (gettoken s₁).s).w).map Span.text = r := by
    rw [hcode, ← hr, ← htext]
    unfold redirOf
    split <;> rfl
  rw [List.map_cons, hmap, hrs]

theorem parseredirs_complete (h : Redirs ls rs) :
    ∀ (n : Nat) {s : Ptr} {rest : List Lexeme}, lexemes s = ls ++ rest →
    (∀ l ls', rest = l :: ls' → l ≠ .lt ∧ l ≠ .gt ∧ l ≠ .gtgt) →
    Gives (parseredirs n s) (fun rs' => rs'.map (Redir.map Span.text) = rs) rest := by
  induction h with
  | nil =>
    intro n s rest hlex hno
    apply Gives.fuel n
    intro n
    obtain ⟨s₁, hp, hs₁⟩ := peek_false s ['<', '>'] (by decide) (by
      intro l ls c hl hlead hc
      obtain ⟨h1, h2, h3⟩ := hno l ls (hlex.symm.trans hl)
      simp only [List.mem_cons, List.not_mem_nil, or_false] at hc
      cases l <;> first | contradiction | (rcases hc with rfl | rfl <;> cases hlead))
    simp only [parseredirs, hp]
    exact .ok rfl (hs₁.trans hlex)
  | input w h ih =>
    intro n s rest hlex hno
    apply Gives.fuel n
    intro n
    exact redir_complete rfl (by decide) rfl hlex (fun _ hs => ih n hs hno)
  | output w h ih =>
    intro n s rest hlex hno
    apply Gives.fuel n
    intro n
    exact redir_complete rfl (by decide) rfl hlex (fun _ hs => ih n hs hno)
  | append w h ih =>
    intro n s rest hlex hno
    apply Gives.fuel n
    intro n
    exact redir_complete rfl (by decide) rfl hlex (fun _ hs => ih n hs hno)

theorem backLoop_complete (k : Nat) : ∀ (n : Nat) (cmd : Cmd Span) {s : Ptr}
    {rest : List Lexeme}, lexemes s = List.replicate k .amp ++ rest →
    (∀ l ls, rest = l :: ls → l ≠ .amp) →
    Gives (backLoop n cmd s) (fun cmd' => cmd' = backs k cmd) rest := by
  induction k with
  | zero =>
    intro n cmd s rest hlex hno
    apply Gives.fuel n
    intro n
    obtain ⟨s₁, hp, hs₁⟩ := peek_false s ['&'] (by decide) (by
      intro l ls c hl hlead hc
      have hne := hno l ls (hlex.symm.trans hl)
      rw [List.mem_singleton.mp hc] at hlead
      cases l <;> contradiction)
    simp only [backLoop, hp]
    exact .ok rfl (hs₁.trans hlex)
  | succ k ih =>
    intro n cmd s rest hlex hno
    apply Gives.fuel n
    intro n
    rw [List.replicate_succ, List.cons_append] at hlex
    obtain ⟨s₁, hp, hlex₁⟩ := peek_true ['&'] (by decide) hlex rfl (by decide)
    obtain ⟨_, _, _, hleft⟩ := gettoken_symbol hlex₁
    simp only [backLoop, hp]
    exact ih n _ hleft hno

theorem argLoop_complete {ws : List (List Char)} (h : Args ls ws rs) :
    ∀ (n : Nat) {argc : Nat} {s : Ptr}
    {rest : List Lexeme}, lexemes s = ls ++ rest → Ends (follow .exec) rest →
    (ws = [] ∨ argc + ws.length < MAXARGS) →
    Gives (argLoop n argc s)
      (fun p => p.1.map Span.text = ws ∧ p.2.map (Redir.map Span.text) = rs) rest := by
  induction h with
  | nil =>
    intro n argc s rest hlex hend _
    apply Gives.fuel n
    intro n
    cases rest with
    | nil =>
      -- the end of the line: `gettoken` returns 0
      obtain ⟨s₁, hp, hs₁⟩ := peek_false s ['|', ')', '&', ';'] (by decide) (by
        intro l ls c hl
        rw [hlex] at hl
        cases hl)
      rcases gettoken_reads s₁ with ⟨_, hret, hr⟩ | ⟨l, hr, _⟩
      · simp only [argLoop, hp, hret, if_true]
        exact .ok ⟨rfl, rfl⟩ (hr.split.symm.trans (hs₁.trans hlex))
      · have hsplit := hr.split
        rw [hs₁, hlex] at hsplit
        cases hsplit
    | cons l rest =>
      have hl := hend l rest rfl
      obtain ⟨c, hlead, hc⟩ : ∃ c, l.lead = some c ∧ c ∈ ['|', ')', '&', ';'] := by
        simp only [follow, List.mem_cons, List.not_mem_nil, or_false] at hl
        rcases hl with rfl | rfl | rfl | rfl <;> exact ⟨_, rfl, by decide⟩
      obtain ⟨s₁, hp, hs₁⟩ := peek_true _ (by decide) hlex hlead hc
      simp only [argLoop, hp]
      exact .ok ⟨rfl, rfl⟩ hs₁
  | @cons ls ls' rs rs' ws w hredirs hargs ih =>
    intro n argc s rest hlex hend hcount
    apply Gives.fuel n
    intro n
    have hlen : argc + 1 + ws.length < MAXARGS := by
      rcases hcount with hnil | hcount
      · cases hnil
      · rw [List.length_cons] at hcount
        omega
    obtain ⟨s₁, hp, hs₁⟩ := peek_false s ['|', ')', '&', ';'] (by decide) (by
      intro l ls c hl hlead
      rw [hlex] at hl
      cases hl
      cases hlead)
    have hlex₁ : lexemes s₁ = .word w :: (ls ++ (ls' ++ rest)) := by
      rw [hs₁, hlex, List.cons_append, List.append_assoc]
    obtain ⟨hret, htext, hleft⟩ := gettoken_of_word hlex₁
    have hne : ¬ ('a' : Char) = '\x00' := by decide
    simp only [argLoop, hp, hret, hne, if_false, ne_eq, not_true_eq_false,
      show ¬ argc + 1 ≥ MAXARGS by omega]
    -- redirections stop before the next word and before what ends the command
    have hstop : ∀ l k, ls' ++ rest = l :: k → l ≠ .lt ∧ l ≠ .gt ∧ l ≠ .gtgt := by
      intro l k hl
      cases hargs with
      | nil =>
        have hmem := hend l k hl
        simp only [follow, List.mem_cons, List.not_mem_nil, or_false] at hmem
        rcases hmem with rfl | rfl | rfl | rfl <;> simp
      | cons v _ _ =>
        cases hl
        simp
    refine (parseredirs_complete hredirs n hleft hstop).bind (fun rs₁ s₂ hrs hs₂ => ?_)
    refine (ih n hs₂ hend (Or.inr hlen)).bind (fun p s₃ hp hs₃ => .ok ?_ hs₃)
    refine ⟨?_, ?_⟩
    · rw [List.map_cons, htext, hp.1]
    · rw [List.map_append, hrs, hp.2]

/-- The function that parses a phrase. -/
def parse : Phrase → Nat → Ptr → Except ParseError (Cmd Span × Ptr)
  | .line => parseline
  | .pipe => parsepipe
  | .exec => parseexec

theorem Ends.cons {l : Lexeme} (h : l ∈ stops) : Ends stops (l :: rest) := by
  intro l' ls hl
  cases hl
  exact h

theorem Ends.mono {stops' : List Lexeme} (h : Ends stops rest) (hs : ∀ l ∈ stops, l ∈ stops') :
    Ends stops' rest :=
  fun l ls hl => hs l (h l ls hl)

/-- A line of `&`s ends a pipeline. -/
theorem Ends.amps {k : Nat} (h : Ends (follow .pipe) rest) :
    Ends (follow .pipe) (List.replicate k .amp ++ rest) := by
  cases k with
  | zero => exact h
  | succ k => exact .cons (by decide)

theorem Ends.peek_false (toks : List Char) (ht : toks ⊆ symbols) (hlex : lexemes s = rest)
    (h : Ends stops rest) (hno : ∀ l ∈ stops, l.lead.all (fun c => !toks.contains c) = true) :
    ∃ s', peek s toks = (false, s') ∧ lexemes s' = rest := by
  have hlead : ∀ l ls c, lexemes s = l :: ls → l.lead = some c → c ∉ toks := by
    intro l ls c hl hlead hc
    have hl' := hno l (h l ls (hlex.symm.trans hl))
    rw [hlead] at hl'
    simp [hc] at hl'
  obtain ⟨s', hp, hs'⟩ := Shell.peek_false s toks ht hlead
  exact ⟨s', hp, hs'.trans hlex⟩

/-- **Completeness.** -/
theorem parse_complete {p : Phrase} {t : Cmd (List Char)} (h : Derives p ls t) :
    ∀ (n : Nat) (s : Ptr) (rest : List Lexeme),
    lexemes s = ls ++ rest → Ends (follow p) rest →
    Gives (parse p n s) (fun cmd => cmd.map Span.text = t) rest := by
  induction h with
  | @line ls t k h ih =>
    intro n s rest hlex hend
    apply Gives.fuel n
    intro n
    have hpipe := ih n s (List.replicate k .amp ++ rest)
      (by rw [hlex, List.append_assoc]) (.amps (hend.mono (by decide)))
    simp only [parse, parseline]
    refine hpipe.bind (fun cmd s₁ hcmd hs₁ => ?_)
    have hback := backLoop_complete k n cmd hs₁ (fun l ls hl => by
      rintro rfl
      exact absurd (hend _ ls hl) (by decide))
    refine hback.bind (fun cmd' s₂ hcmd' hs₂ => ?_)
    obtain ⟨s₃, hp, hs₃⟩ := Ends.peek_false [';'] (by decide) hs₂ hend (by decide)
    simp only [hp]
    refine .ok ?_ hs₃
    rw [hcmd', map_backs, hcmd]
  | @seq ls ls' t t' k h h' ih ih' =>
    intro n s rest hlex hend
    apply Gives.fuel n
    intro n
    have hpipe := ih n s (List.replicate k .amp ++ .semi :: (ls' ++ rest))
      (by rw [hlex]; simp) (.amps (.cons (by decide)))
    simp only [parse, parseline]
    refine hpipe.bind (fun cmd s₁ hcmd hs₁ => ?_)
    have hback := backLoop_complete k n cmd hs₁ (fun l ls hl => by
      cases hl
      simp)
    refine hback.bind (fun cmd' s₂ hcmd' hs₂ => ?_)
    obtain ⟨s₃, hp, hs₃⟩ := peek_true [';'] (by decide) hs₂ rfl (by decide)
    obtain ⟨_, _, _, hleft⟩ := gettoken_symbol hs₃
    simp only [hp]
    refine (ih' n _ _ hleft hend).bind (fun right s₄ hright hs₄ => .ok ?_ hs₄)
    rw [Cmd.map, hcmd', map_backs, hcmd, hright]
  | @exec ls t h ih =>
    intro n s rest hlex hend
    apply Gives.fuel n
    intro n
    simp only [parse, parsepipe]
    refine (ih n _ _ hlex (hend.mono (by decide))).bind (fun cmd s₁ hcmd hs₁ => ?_)
    obtain ⟨s₂, hp, hs₂⟩ := Ends.peek_false ['|'] (by decide) hs₁ hend (by decide)
    simp only [hp]
    exact .ok hcmd hs₂
  | @pipe ls ls' t t' h h' ih ih' =>
    intro n s rest hlex hend
    apply Gives.fuel n
    intro n
    have hexec := ih n s (.bar :: (ls' ++ rest)) (by rw [hlex]; simp) (.cons (by decide))
    simp only [parse, parsepipe]
    refine hexec.bind (fun cmd s₁ hcmd hs₁ => ?_)
    obtain ⟨s₂, hp, hs₂⟩ := peek_true ['|'] (by decide) hs₁ rfl (by decide)
    obtain ⟨_, _, _, hleft⟩ := gettoken_symbol hs₂
    simp only [hp]
    refine (ih' n _ _ hleft hend).bind (fun right s₃ hright hs₃ => .ok ?_ hs₃)
    rw [Cmd.map, hcmd, hright]
  | @block ls ls' t rs h h' ih =>
    intro n s rest hlex hend
    apply Gives.fuel n
    intro n
    have hlex' : lexemes s = .lpar :: (ls ++ .rpar :: (ls' ++ rest)) := by
      rw [hlex]
      simp
    obtain ⟨s₁, hp, hs₁⟩ := peek_true ['('] (by decide) hlex' rfl (by decide)
    simp only [parse, parseexec, hp]
    apply Gives.fuel n
    intro n
    obtain ⟨s₂, hp₂, hs₂⟩ := peek_true ['('] (by decide) hs₁ rfl (by decide)
    obtain ⟨_, _, _, hopen⟩ := gettoken_symbol hs₂
    simp only [parseblock, hp₂]
    refine (ih n _ _ hopen (.cons (by decide))).bind (fun cmd s₃ hcmd hs₃ => ?_)
    obtain ⟨s₄, hp₄, hs₄⟩ := peek_true [')'] (by decide) hs₃ rfl (by decide)
    obtain ⟨_, _, _, hclose⟩ := gettoken_symbol hs₄
    simp only [hp₄]
    have hredirs := parseredirs_complete h' n hclose (fun l k hl => by
      have hmem := hend l k hl
      simp only [follow, List.mem_cons, List.not_mem_nil, or_false] at hmem
      rcases hmem with rfl | rfl | rfl | rfl <;> simp)
    refine hredirs.bind (fun rs' s₅ hrs hs₅ => .ok ?_ hs₅)
    rw [map_wrap, hcmd, hrs]
  | @simple ls ls' ws rs rs' h h' hn =>
    intro n s rest hlex hend
    apply Gives.fuel n
    intro n
    -- neither a redirection nor a word nor what ends a command is a `(`
    have hfirst : ∀ l k, ls' ++ rest = l :: k → l ≠ .lpar ∧ l ≠ .lt ∧ l ≠ .gt ∧ l ≠ .gtgt := by
      intro l k hl
      cases h' with
      | nil =>
        have hmem := hend l k hl
        simp only [follow, List.mem_cons, List.not_mem_nil, or_false] at hmem
        rcases hmem with rfl | rfl | rfl | rfl <;> simp
      | cons v _ _ =>
        cases hl
        simp
    have hlex' : lexemes s = ls ++ (ls' ++ rest) := by rw [hlex, List.append_assoc]
    obtain ⟨s₁, hp, hs₁⟩ := peek_false s ['('] (by decide) (by
      intro l k c hl hlead hc
      rw [List.mem_singleton.mp hc] at hlead
      rw [hlex'] at hl
      cases h with
      | nil =>
        have hne := (hfirst l k hl).1
        cases l <;> contradiction
      | input w _ => cases hl; cases hlead
      | output w _ => cases hl; cases hlead
      | append w _ => cases hl; cases hlead)
    simp only [parse, parseexec, hp]
    have hredirs := parseredirs_complete h n (hs₁.trans hlex')
      (fun l k hl => (hfirst l k hl).2)
    refine hredirs.bind (fun rs₁ s₂ hrs hs₂ => ?_)
    refine (argLoop_complete h' n hs₂ hend (Or.inr ?_)).bind (fun q s₃ hq hs₃ => .ok ?_ hs₃)
    · omega
    · rw [map_wrap, Cmd.map, List.map_append, hrs, hq.1, hq.2]

end Xv6.Shell
