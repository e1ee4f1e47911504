import Xv6.Framework.System
import Xv6.Mem.Build

/-! # No Page Is Lost

    `vm.c` over whole runs: any sequence of calls on any number of
    directories, each in use by one address space. Every page of the initial
    free list stays in exactly one place, and a call that fails leaves the
    address spaces as they were.

    Between the calls the rest of the kernel may take pages and give them
    back (`out`), so a call can find the free list with any number of
    pages left and run out of memory at any of its `kalloc`s.
-/

namespace Xv6.Vm

open Ownership LTS

/-! ### Runs -/

/-- Physical memory, and the pages the rest of the kernel holds. -/
structure VmState where
  mem : Mem
  out : List Page

/-- The calls of `vm.c`, and `kalloc` and `kfree` by the rest of the kernel. -/
inductive Call where
  | setupkvm
  | allocuvm (d : Page) (oldsz newsz : Nat)
  | deallocuvm (d : Page) (oldsz newsz : Nat)
  | clearpteu (d : Page) (v : Nat)
  | copyuvm (d : Page) (sz : Nat)
  | freevm (d : Page)
  | kalloc
  | kfree (x : Page)

namespace VmState

def call (L : Layout) (s : VmState) : Call → Except Panic VmState
  | .setupkvm => (s.mem.setupkvm L).map (fun r => { s with mem := r.2 })
  | .allocuvm d oldsz newsz =>
      (s.mem.allocuvm L d oldsz newsz).map (fun r => { s with mem := r.2 })
  | .deallocuvm d oldsz newsz =>
      (s.mem.deallocuvm L d oldsz newsz).map (fun r => { s with mem := r.2 })
  | .clearpteu d v => (s.mem.clearpteu d v).map (fun m => { s with mem := m })
  | .copyuvm d sz => (s.mem.copyuvm L d sz).map (fun r => { s with mem := r.2 })
  | .freevm d => (s.mem.freevm L d).map (fun m => { s with mem := m })
  | .kalloc =>
      match s.mem.kalloc with
      | (none, m) => .ok { s with mem := m }
      | (some x, m) => .ok ⟨m, x :: s.out⟩
  | .kfree x => (s.mem.kfree L x).map (fun m => ⟨m, s.out.erase x⟩)

/-- A call is on a directory in use. `allocuvm` and `copyuvm` are given its
    size, `deallocuvm` sizes of user space; the rest of the kernel frees
    what it holds. -/
def Permitted (s : VmState) : Call → Prop
  | .setupkvm | .kalloc => True
  | .allocuvm d oldsz _ => ∃ D, s.mem.dirs d = some D ∧ D.Sized oldsz
  | .deallocuvm d oldsz _ => (∃ D, s.mem.dirs d = some D) ∧ oldsz ≤ KERNBASE
  | .clearpteu d _ | .freevm d => ∃ D, s.mem.dirs d = some D
  | .copyuvm d sz => ∃ D, s.mem.dirs d = some D ∧ D.Sized sz
  | .kfree x => x ∈ s.out

/-- The pages of `S` are accounted for. -/
def Accounted (S : Set Page) (s : VmState) : Prop :=
  Mem.Ok S s.mem (Empty.elim : Empty → Option Page) s.out

end VmState

/-- `vm.c` started with the pages `F` on the free list. -/
def vmSystem (L : Layout) (F : List Page) : System VmState Call where
  init := fun s => s.mem.free = F ∧ (∀ d, s.mem.dirs d = none) ∧ s.out = []
  step := fun s c s' => s.Permitted c ∧ s.call L c = .ok s'

namespace VmState

variable {L : Layout} {F : List Page} {S : Set Page} {s s' : VmState}

theorem accounted_init (hF : F.Nodup) (h : (vmSystem L F).init s) :
    Accounted {p | p ∈ F} s := by
  obtain ⟨hfree, hdirs, hout⟩ := h
  unfold Accounted
  rw [← hfree, hout]
  exact Mem.ok_initial hdirs (by rw [hfree]; exact hF)

/-- A panic is `kfree`'s of a page that should not have been on the free
    list; `clearpteu` needs a page table. -/
def Panics (L : Layout) (S : Set Page) (s : VmState) (c : Call) (e : Panic) : Prop :=
  Mem.Fails L S e ∨
  ∃ d v D, c = .clearpteu d v ∧ s.mem.dirs d = some D ∧ (D.ptab (PDX v)).isSome = false

/-- **Every call** keeps the pages accounted for, and a permitted one does not
    panic otherwise. -/
theorem Accounted.call_ends {c : Call} (h : Accounted S s) (hp : s.Permitted c) :
    Mem.Ends (s.call L c) (Panics L S s c) (Accounted S) := by
  cases c with
  | setupkvm =>
    refine ((Mem.setupkvm_spec h).weaken (fun e => Or.inl)).map (fun r hr => ?_)
    rcases hr with ⟨d, D, _, hb, _⟩ | ⟨_, _, hun⟩
    · exact hb.ok
    · exact hun.ok
  | allocuvm d oldsz newsz =>
    obtain ⟨D, hd, hsized⟩ := hp
    refine ((Mem.allocuvm_spec _ h hd hsized).weaken (fun e => Or.inl)).map (fun r hr => ?_)
    obtain ⟨D', ⟨_, _, _, hadd, _⟩ | ⟨_, _, hsame, _⟩ | ⟨_, _, hres⟩⟩ := hr
    · exact hadd.ok
    · unfold Accounted
      rw [hsame]
      exact h
    · exact hres.ok
  | deallocuvm d oldsz newsz =>
    obtain ⟨⟨D, hd⟩, hold⟩ := hp
    by_cases hlt : newsz < oldsz
    · refine ((Mem.deallocuvm_spec hold hlt h hd).weaken (fun e => Or.inl)).map (fun r hr => ?_)
      exact hr.2.1
    · rw [VmState.call, Mem.deallocuvm_of_ge (Nat.le_of_not_lt hlt)]
      exact h
  | clearpteu d v =>
    obtain ⟨D, hd⟩ := hp
    cases ht : (D.ptab (PDX v)).isSome with
    | true =>
      obtain ⟨m', _, hc, hok, _⟩ := Mem.clearpteu_spec h hd ht
      rw [VmState.call, hc]
      exact hok
    | false =>
      have hnone : D.ptab (PDX v) = none := by simpa using ht
      simp only [VmState.call, Mem.clearpteu, hd, hnone, Except.map]
      exact Or.inr ⟨d, v, D, rfl, hd, ht⟩
  | copyuvm d sz =>
    obtain ⟨D, hd, hsized⟩ := hp
    have htop := Mem.pgroundup_le hsized.1
    refine ((Mem.copyuvm_spec h hd hsized.1).weaken (fun e he => ?_)).map (fun r hr => ?_)
    · rcases he with he | ⟨v, hv, hnone⟩
      · exact Or.inl he
      · -- the pages of the address space are present
        have hsome := (hsized.2 v (by omega)).mpr ((Mem.lt_pgroundup_iff hsized.1).mp hv)
        rw [hnone] at hsome
        cases hsome
    · rcases hr with ⟨d', _, _, _, _, _, _, _, _, hb, _⟩ | ⟨_, _, hun⟩
      · exact hb.ok
      · exact hun.ok
  | freevm d =>
    obtain ⟨D, hd⟩ := hp
    exact ((Mem.freevm_spec h hd).weaken (fun e => Or.inl)).map (fun m hm => hm.1)
  | kalloc =>
    rw [VmState.call]
    cases hf : s.mem.free with
    | nil =>
      rw [Mem.kalloc_of_nil hf]
      exact h
    | cons x ps =>
      rw [Mem.kalloc_of_free hf]
      have htaken := Mem.Ok.taken h hf (s.mem.contents x)
      exact htaken.of_same rfl rfl
  | kfree x =>
    have hperm : (s.mem.free ++ s.out).Perm (s.mem.free ++ x :: s.out.erase x) :=
      (List.perm_cons_erase hp).append_left _
    have hout : Mem.Ok S s.mem (Empty.elim : Empty → Option Page) (x :: s.out.erase x) :=
      Owned.perm h hperm
    exact (hout.kfree_ends.weaken (fun e => Or.inl)).map (fun m hm => hm.1)

theorem accounted_reachable (hF : F.Nodup) (h : Reachable (vmSystem L F) s) :
    Accounted {p | p ∈ F} s :=
  Reachable.invariant (fun _ h0 => accounted_init hF h0)
    (fun _ _ _ hs hst => (hs.call_ends hst.1).of_ok hst.2) h

/-- No permitted call panics; `clearpteu` needs a page table. -/
theorem Accounted.returns (h : Accounted S s) (hS : ∀ p ∈ S, L.ValidPage p) {c : Call}
    (hp : s.Permitted c)
    (hclear : ∀ d v D, c = .clearpteu d v → s.mem.dirs d = some D → (D.ptab (PDX v)).isSome) :
    ∃ s', s.call L c = .ok s' := by
  refine (((h.call_ends hp).weaken (fun e he => ?_)).returns hS).imp (fun _ hs => hs.1)
  rcases he with he | ⟨d, v, D, hc, hd, ht⟩
  · exact he
  · rw [hclear d v D hc hd] at ht
    cases ht

end VmState

end Xv6.Vm
