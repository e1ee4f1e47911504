import Xv6.Framework.System

/-! # Commands

    A command is a tree of atomic actions on a state: it returns, or it takes
    an action and goes on with what the action returned. An action can fail,
    and then the command goes no further.

    - `Command`: the trees, with `bind`
    - `Holds I Q`: the invariant `I` holds after every action of a command, and
      `Q` when it returns
    - `calls`: the system in which commands are run one after the other, action
      by action, so that its states are also those inside a command
    - `Reachable.calls_invariant`: the invariant rule for it
-/

namespace LTS

/-- A tree of atomic actions on `σ`, which fail with an `ε`. -/
inductive Command (σ ε : Type) (α : Type) : Type 1 where
  | ret (a : α)
  | act {β : Type} (f : σ → Except ε (β × σ)) (k : β → Command σ ε α)

namespace Command

variable {σ ε α β γ : Type} {e : ε} {c : Prop} {body : ι → Command σ ε Unit}

def bind : Command σ ε α → (α → Command σ ε β) → Command σ ε β
  | .ret a, g => g a
  | .act f k, g => .act f (fun b => bind (k b) g)

instance : Monad (Command σ ε) where
  pure := .ret
  bind := bind

/-- The command that takes one action. -/
def atom (f : σ → Except ε (α × σ)) : Command σ ε α := .act f .ret

/-- An action that only changes the state. -/
def modify (f : σ → σ) : Command σ ε Unit := atom (fun s => .ok ((), f s))

/-- An action that only reads the state. -/
def read (f : σ → α) : Command σ ε α := atom (fun s => .ok (f s, s))

/-- The command that fails. -/
def fail (e : ε) : Command σ ε α := atom (fun _ => .error e)

/-- Fail under a condition. -/
def failIf (c : Prop) [Decidable c] (e : ε) : Command σ ε Unit := if c then fail e else pure ()

/-- Run a command under a condition. -/
def whenever (c : Prop) [Decidable c] (m : Command σ ε Unit) : Command σ ε Unit :=
  if c then m else pure ()

/-- All actions of a command, one after the other. -/
def run : Command σ ε α → σ → Except ε (α × σ)
  | .ret a, s => .ok (a, s)
  | .act f k, s =>
    match f s with
    | .error e => .error e
    | .ok (b, s') => run (k b) s'

/-! ### What holds along a command -/

/-- `I` holds after every action of the command, and `Q` when it returns. -/
def Holds (I : σ → Prop) (Q : α → σ → Prop) : Command σ ε α → σ → Prop
  | .ret a, s => Q a s
  | .act f k, s => ∀ b s', f s = .ok (b, s') → I s' ∧ Holds I Q (k b) s'

variable {I J : σ → Prop} {Q R : α → σ → Prop} {s s' : σ}

theorem holds_pure {a : α} (h : Q a s) : Holds (ε := ε) I Q (pure a) s := h

theorem holds_atom {f : σ → Except ε (α × σ)}
    (h : ∀ a s', f s = .ok (a, s') → I s' ∧ Q a s') : Holds I Q (atom f) s := h

theorem holds_fail : Holds I Q (fail e : Command σ ε α) s := by
  intro b s' h
  cases h

theorem holds_modify {f : σ → σ} {Q : Unit → σ → Prop} (hI : I (f s)) (h : Q () (f s)) :
    Holds (ε := ε) I Q (modify f) s := by
  intro a s' hf
  cases hf
  exact ⟨hI, h⟩

theorem holds_failIf [Decidable c] {Q : Unit → σ → Prop} (h : ¬ c → Q () s) :
    Holds I Q (failIf c e) s := by
  unfold failIf
  split
  · exact holds_fail
  · rename_i hc
    exact h hc

theorem holds_whenever [Decidable c] {m : Command σ ε Unit} {Q : Unit → σ → Prop}
    (hthen : c → Holds I Q m s) (helse : ¬ c → Q () s) : Holds I Q (whenever c m) s := by
  unfold whenever
  split
  · rename_i hc
    exact hthen hc
  · rename_i hc
    exact helse hc

/-- **Consequence**. -/
theorem Holds.mono {m : Command σ ε α} (h : Holds I Q m s) (hQ : ∀ a s, Q a s → R a s) :
    Holds I R m s := by
  induction m generalizing s with
  | ret a => exact hQ a s h
  | act f k ih =>
    intro b s' hf
    exact ⟨(h b s' hf).1, ih b (h b s' hf).2⟩

/-- **Sequence**: what holds when the first command returns has to carry the
    second. -/
theorem Holds.bind {m : Command σ ε α} {g : α → Command σ ε β} {R : β → σ → Prop}
    (h : Holds I Q m s) (hg : ∀ a s, Q a s → Holds I R (g a) s) : Holds I R (m >>= g) s := by
  induction m generalizing s with
  | ret a => exact hg a s h
  | act f k ih =>
    intro b s' hf
    exact ⟨(h b s' hf).1, ih b (h b s' hf).2⟩

theorem holds_read_bind {f : σ → α} {g : α → Command σ ε β} {R : β → σ → Prop} (hI : I s)
    (h : Holds I R (g (f s)) s) : Holds I R (read f >>= g) s := by
  intro a s' hf
  cases hf
  exact ⟨hI, h⟩

theorem holds_failIf_bind [Decidable c] {g : Unit → Command σ ε β} {R : β → σ → Prop}
    (h : ¬ c → Holds I R (g ()) s) : Holds I R (failIf c e >>= g) s := by
  refine Holds.bind (Q := fun _ t => ¬ c ∧ s = t) (holds_failIf fun hc => ⟨hc, rfl⟩) ?_
  rintro _ t ⟨hc, rfl⟩
  exact h hc

end Command

/-! ### Commands one after the other -/

variable {σ ε ι : Type}

/-- The system that runs commands one after the other: `some i` starts the command
    `body i`, which may be done where `guard i` holds, and `none` takes the next
    action of the command that is running. -/
def calls (init : σ → Prop) (guard : ι → σ → Prop) (body : ι → Command σ ε Unit) :
    System (σ × Command σ ε Unit) (Option ι) where
  init := fun s => init s.1 ∧ s.2 = .ret ()
  step := fun s l s' =>
    match l with
    | some i => s.2 = .ret () ∧ guard i s.1 ∧ s' = (s.1, body i)
    | none => ∃ (β : Type) (f : σ → Except ε (β × σ)) (k : β → Command σ ε Unit) (b : β),
        s.2 = .act f k ∧ f s.1 = .ok (b, s'.1) ∧ s'.2 = k b

/-- **Invariant rule for calls**: what holds initially, and along every command that
    is started where it holds, holds in every state, also inside the commands. -/
theorem Reachable.calls_invariant {init : σ → Prop} {guard : ι → σ → Prop} {I : σ → Prop}
    (hinit : ∀ s, init s → I s)
    (hbody : ∀ i s, I s → guard i s → (body i).Holds I (fun _ _ => True) s)
    {s : σ × Command σ ε Unit} (h : Reachable (calls init guard body) s) : I s.1 := by
  -- the rest of the running command keeps the invariant
  have hinit' : ∀ t, (calls init guard body).init t → I t.1 ∧ t.2.Holds I (fun _ _ => True) t.1 := by
    rintro ⟨s, m⟩ ⟨hs, rfl⟩
    exact ⟨hinit s hs, trivial⟩
  have hstep : ∀ t l t', (I t.1 ∧ t.2.Holds I (fun _ _ => True) t.1) →
      (calls init guard body).step t l t' → I t'.1 ∧ t'.2.Holds I (fun _ _ => True) t'.1 := by
    rintro ⟨s, m⟩ l ⟨s', m'⟩ ⟨hI, hm⟩ hst
    cases l with
    | some i =>
      obtain ⟨_, hguard, heq⟩ := hst
      cases heq
      exact ⟨hI, hbody i s hI hguard⟩
    | none =>
      obtain ⟨β, f, k, b, hact, hf, hnext⟩ := hst
      dsimp only at hact hf hnext hm
      rw [hact] at hm
      rw [hnext]
      exact hm b s' hf
  exact (h.invariant hinit' hstep).1

/-- A command that has been run to its end was run action by action. -/
theorem Reachable.calls_run {init : σ → Prop} {guard : ι → σ → Prop} {s s' : σ} :
    ∀ {m : Command σ ε Unit},
    Reachable (calls init guard body) (s, m) → m.run s = .ok ((), s') →
    Reachable (calls init guard body) (s', .ret ()) := by
  intro m
  induction m generalizing s with
  | ret a =>
    intro h hrun
    cases hrun
    exact h
  | act f k ih =>
    intro h hrun
    rw [Command.run] at hrun
    cases hf : f s with
    | error e =>
      rw [hf] at hrun
      cases hrun
    | ok r =>
      rw [hf] at hrun
      exact ih r.1 (.step none h ⟨_, f, k, r.1, rfl, hf, rfl⟩) hrun

/-- One call after a state in which no command is running. -/
theorem Reachable.calls_call {init : σ → Prop} {guard : ι → σ → Prop} {s s' : σ} (i : ι)
    (h : Reachable (calls init guard body) (s, .ret ())) (hguard : guard i s)
    (hrun : (body i).run s = .ok ((), s')) : Reachable (calls init guard body) (s', .ret ()) :=
  Reachable.calls_run (.step (some i) h ⟨rfl, hguard, rfl⟩) hrun

end LTS
