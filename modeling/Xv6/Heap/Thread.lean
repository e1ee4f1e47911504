import Xv6.Heap.Tiling

/-! # Thread Stacks (`thread.c`, `clone`)

    `thread_create` takes a page from `malloc`, rounds the address up to a page
    boundary and passes it to `clone`, which stores two words at the top of the
    page behind that address. `thread_join` frees the address that `join` hands
    back, which is the rounded one.

    A block of `PGSIZE` bytes has room for the rounded page only when `malloc`
    has returned a page boundary. The first stack of a program is such a block;
    the second is not, and the stores for it run over the header of the first.
-/

namespace Xv6.Umalloc

open Extent LTS

variable {sb : Sbrk} {r tid : Nat} {b : Live} {arg : Word} {p : Program sb} {bs : List Nat}

/-! ### The library -/

/-- A thread that has been created and not yet joined. -/
structure Thread where
  tid : Nat
  /-- `np->tstack` -/
  tstack : Nat
  /-- What `malloc` returned for the stack (not kept by the code). -/
  block : Nat
  deriving DecidableEq

/-- A program and its threads. -/
structure Threads (sb : Sbrk) where
  prog : Program sb
  threads : List Thread

/-- `if ((uint)stack % PGSIZE != 0) stack += PGSIZE - ((uint)stack % PGSIZE)` -/
def pageUp (stack : Nat) : Nat :=
  if stack % PGSIZE ≠ 0 then (stack + (PGSIZE - stack % PGSIZE)) % ADDRSPACE else stack

/-- The page that `thread_create` passes to `clone`. -/
def stackPage (stack : Nat) : Extent := ⟨stack, PGSIZE⟩

/-- The argument and the return address that `clone` pushes. -/
def cloneStores (m : Mem) (arg : Word) (stack : Nat) : Mem :=
  let m := setWord m ((stack + PGSIZE - 1 * 4) % ADDRSPACE) arg.toNat
  setWord m ((stack + PGSIZE - 2 * 4) % ADDRSPACE) 0xFFFFFFFF

/-- `clone` returns the number of the new thread, or fails for want of a process
    table entry (`none`), before it stores anything. -/
def thread_create (base fuel : Nat) (s : Threads sb) (arg : Word) (tid : Option Nat) :
    Option (Threads sb) :=
  (s.prog.malloc base fuel (BitVec.ofNat 32 PGSIZE)).map fun (p, r) =>
    if r = 0 then { s with prog := p }
    else
      match tid with
      | none => { s with prog := p }
      | some tid =>
        { prog := { p with heap := { p.heap with
            mem := cloneStores p.heap.mem arg (pageUp r) } }
          threads := ⟨tid, pageUp r, r⟩ :: s.threads }

/-- `join` hands back the stack of the thread; when there is none it fails, and
    `stack` has whatever value the uninitialised variable has. -/
def thread_join (fuel : Nat) (s : Threads sb) (tid junk : Nat) : Option (Threads sb) :=
  match s.threads.find? (fun t => decide (t.tid = tid)) with
  | some t =>
    (s.prog.free fuel t.tstack).map fun p =>
      { prog := p, threads := s.threads.filter (fun t => decide (t.tid ≠ tid)) }
  | none => (s.prog.free fuel junk).map fun p => { s with prog := p }

/-- What a program with threads does. -/
inductive ThreadCall where
  | call (c : Call)
  | create (arg : Word) (tid : Option Nat)
  | join (tid junk : Nat)

/-- The address that a call frees. -/
def Call.freed : Call → Option Nat
  | .free ap => some ap
  | _ => none

/-- One call. The program frees no stack itself, and thread numbers are new. -/
def threadExec (base fuel : Nat) (s : Threads sb) : ThreadCall → Option (Threads sb)
  | .call c =>
    if ∀ t ∈ s.threads, c.freed ≠ some t.block then
      (exec base fuel s.prog c).map fun p => { s with prog := p }
    else none
  | .create arg tid =>
    if ∀ t ∈ s.threads, tid ≠ some t.tid then thread_create base fuel s arg tid else none
  | .join tid junk => thread_join fuel s tid junk

/-- All runs of a program with threads. -/
def threadSystem (sb : Sbrk) (base : Nat) : System (Threads sb) ThreadCall where
  init := fun s => s.prog.Fresh base ∧ s.threads = []
  step := fun s c s' => ∃ fuel, threadExec base fuel s c = some s'

/-- The steps after which the stacks are still sound: `malloc` gives
    `thread_create` a page boundary (or null), and `thread_join` is called with
    the number of a thread. -/
def Aligned (base : Nat) (s : Threads sb) : ThreadCall → Prop
  | .call _ => True
  | .create _ _ => ∃ fuel p r, s.prog.malloc base fuel (BitVec.ofNat 32 PGSIZE) = some (p, r) ∧
      r % PGSIZE = 0
  | .join tid _ => ∃ t ∈ s.threads, t.tid = tid

/-! ### Stacks in their blocks -/

section inside

variable {base fuel : Nat} {s s' : Threads sb}

theorem pageUp_of_aligned (h : r % PGSIZE = 0) : pageUp r = r := by
  unfold pageUp
  rw [if_neg (by simp [h])]

/-- A block for `PGSIZE` bytes. -/
theorem unitsFor_page : unitsFor (BitVec.ofNat 32 PGSIZE) = 513 := by decide

theorem rounded_page : Rounded (BitVec.ofNat 32 PGSIZE) := by decide

/-- The page lies inside the block just when the block begins at a page boundary. -/
theorem stackPage_inside_iff (hunits : b.units = 513)
    (hlt : b.addr + HEADER * b.units < ADDRSPACE) :
    (∀ x, (stackPage (pageUp (b.addr + HEADER))).Has x → b.payload.Has x) ↔
      (b.addr + HEADER) % PGSIZE = 0 := by
  have hpayload : b.payload = ⟨b.addr + HEADER, PGSIZE⟩ := by
    unfold Live.payload
    rw [hunits]
    rfl
  rw [hpayload]
  rw [hunits] at hlt
  constructor
  · intro h
    by_contra hne
    have hup : pageUp (b.addr + HEADER) =
        b.addr + HEADER + (PGSIZE - (b.addr + HEADER) % PGSIZE) := by
      unfold pageUp
      rw [if_pos hne]
      refine Nat.mod_eq_of_lt ?_
      unfold HEADER PGSIZE ADDRSPACE at *
      omega
    have hlast := h (pageUp (b.addr + HEADER) + PGSIZE - 1) (by
      unfold Has stop stackPage PGSIZE
      dsimp only
      omega)
    rw [hup] at hlast
    unfold Has stop HEADER PGSIZE at *
    dsimp only at hlast
    omega
  · intro h x hx
    rw [pageUp_of_aligned h] at hx
    exact hx

/-- `clone` stores into the page and nowhere else. -/
theorem get_cloneStores {m : Mem} {stack x : Nat} (hlt : stack + PGSIZE < ADDRSPACE)
    (hx : ¬ (stackPage stack).Has x) : (cloneStores m arg stack).get x = m.get x := by
  unfold Has stop stackPage at hx
  dsimp only at hx
  have h₁ : (stack + PGSIZE - 1 * 4) % ADDRSPACE = stack + PGSIZE - 4 :=
    Nat.mod_eq_of_lt (by omega)
  have h₂ : (stack + PGSIZE - 2 * 4) % ADDRSPACE = stack + PGSIZE - 8 :=
    Nat.mod_eq_of_lt (by omega)
  unfold cloneStores
  dsimp only
  rw [h₁, h₂, get_setWord, get_setWord]
  · unfold PGSIZE at *
    omega
  · unfold PGSIZE at *
    omega

/-- All fuels with which `malloc` returns give the same result. -/
theorem malloc_det {nbytes : Word} {fuel₁ fuel₂ : Nat} {r₁ r₂ : Program sb × Nat}
    (h₁ : p.malloc base fuel₁ nbytes = some r₁) (h₂ : p.malloc base fuel₂ nbytes = some r₂) :
    r₁ = r₂ := by
  obtain ⟨q₁, hraw₁, rfl⟩ := Option.map_eq_some_iff.mp h₁
  obtain ⟨q₂, hraw₂, rfl⟩ := Option.map_eq_some_iff.mp h₂
  have e₁ := malloc_mono hraw₁ (Nat.le_max_left fuel₁ fuel₂)
  have e₂ := malloc_mono hraw₂ (Nat.le_max_right fuel₁ fuel₂)
  rw [Option.some.inj (e₁.symm.trans e₂)]

/-- Under the condition: the heap is in order, and each thread's stack is a page
    that fills its own block. -/
structure ThreadInv (base : Nat) (s : Threads sb) : Prop where
  heap : HeapInv base s.prog
  stack : ∀ t ∈ s.threads, t.tstack = t.block
  live : ∀ t ∈ s.threads, ∃ b ∈ s.prog.live, t.block = b.addr + HEADER ∧ b.units = 513
  distinct : s.threads.Pairwise (fun t u => t.tid ≠ u.tid ∧ t.block ≠ u.block)

/-- The end of a live block is an address. -/
theorem Tiled.end_lt (h : Tiled base p bs) (hb : b ∈ p.live) :
    b.addr + HEADER * b.units < ADDRSPACE :=
  Nat.lt_of_le_of_lt (h.end_le hb) (sb.brk_lt p.heap.os)

theorem Tiled.after_header (h : Tiled base p bs) (hb : b ∈ p.live) :
    after b.addr 1 = b.addr + HEADER := by
  have hlt := h.end_lt hb
  have hlen := header_le (h.units_pos hb)
  rw [after_of_lt (by omega), Nat.mul_one]

theorem HeapInv.tiled (h : HeapInv base p) (hb : b ∈ p.live) : ∃ bs, Tiled base p bs := by
  rcases h with ⟨_, hlive, _⟩ | htiled
  · rw [hlive] at hb
    exact absurd hb List.not_mem_nil
  · exact htiled

/-- What `malloc(PGSIZE)` gives: null, or a block of just that size. -/
theorem HeapInv.malloc_page {p' : Program sb} (h : HeapInv base p)
    (hmalloc : p.malloc base fuel (BitVec.ofNat 32 PGSIZE) = some (p', r)) :
    ∃ bs, Tiled base p' bs ∧ ((r = 0 ∧ p'.live = p.live) ∨ ∃ b : Live, r = b.addr + HEADER ∧
      r ≠ 0 ∧ b.units = 513 ∧ p'.live = b :: p.live) := by
  obtain ⟨N, s₂, r₂, hall, ⟨bs, htiled⟩, _, hlive⟩ := h.malloc_spec rounded_page
  obtain ⟨rfl, rfl⟩ := Prod.mk.inj (malloc_det hmalloc (hall N (Nat.le_refl N)))
  refine ⟨bs, htiled, ?_⟩
  rcases hlive with hnull | ⟨b, hr, hne, hunits, _, hlive⟩
  · exact Or.inl hnull
  · have hb : b ∈ p'.live := by
      rw [hlive]
      exact List.mem_cons_self
    exact Or.inr ⟨b, hr.trans (htiled.after_header hb), hne, hunits.trans unitsFor_page, hlive⟩

/-- The stores of `clone` stay in the block of an aligned stack. -/
theorem Tiled.clone (h : Tiled base p bs) (hb : b ∈ p.live) (hunits : b.units = 513)
    (halign : (b.addr + HEADER) % PGSIZE = 0) (arg : Word) : (∀ x, ¬ b.payload.Has x →
      (cloneStores p.heap.mem arg (pageUp (b.addr + HEADER))).get x = p.heap.mem.get x) ∧
    Tiled base { p with heap := { p.heap with
      mem := cloneStores p.heap.mem arg (pageUp (b.addr + HEADER)) } } bs := by
  have hlt := h.end_lt hb
  have hsame : ∀ x, ¬ b.payload.Has x →
      (cloneStores p.heap.mem arg (pageUp (b.addr + HEADER))).get x = p.heap.mem.get x := by
    intro x hx
    refine get_cloneStores ?_ fun hpage => ?_
    · rw [pageUp_of_aligned halign]
      rw [hunits] at hlt
      unfold HEADER PGSIZE at *
      omega
    · exact hx ((stackPage_inside_iff hunits hlt).mpr halign x hpage)
  exact ⟨hsame, h.overwrite fun x hx => hsame x fun hpay => hx (Or.inl ⟨b, hb, hpay⟩)⟩

/-- Calls of the program itself leave the threads' blocks alone. -/
theorem exec_live {p' : Program sb} {c : Call} (h : HeapInv base p)
    (hexec : exec base fuel p c = some p') (hb : b ∈ p.live)
    (hfree : c.freed ≠ some (after b.addr 1)) : b ∈ p'.live := by
  cases c with
  | malloc nbytes =>
    rcases (h.step_malloc hexec).2.2 with hlive | ⟨c, _, _, hlive⟩
    · rwa [hlive]
    · rw [hlive]
      exact List.mem_cons_of_mem _ hb
  | free ap =>
    obtain ⟨bs, htiled⟩ := h.tiled hb
    exact ((htiled.step_free hexec).2.2 b).mpr ⟨hb, fun hap => hfree (congrArg some hap)⟩
  | store x v =>
    unfold exec at hexec
    split at hexec
    · obtain rfl := Option.some.inj hexec
      exact hb
    · cases hexec

theorem ThreadInv.step_call (h : ThreadInv base s) {c : Call}
    (hstep : threadExec base fuel s (.call c) = some s') : ThreadInv base s' := by
  unfold threadExec at hstep
  dsimp only at hstep
  split at hstep
  · rename_i hnot
    obtain ⟨p, hexec, rfl⟩ := Option.map_eq_some_iff.mp hstep
    refine
      { heap := h.heap.step hexec
        stack := h.stack
        live := fun t ht => ?_
        distinct := h.distinct }
    obtain ⟨b, hb, haddr, hunits⟩ := h.live t ht
    refine ⟨b, exec_live h.heap hexec hb ?_, haddr, hunits⟩
    obtain ⟨bs, htiled⟩ := h.heap.tiled hb
    rw [htiled.after_header hb, ← haddr]
    exact hnot t ht
  · cases hstep

theorem ThreadInv.step_create (h : ThreadInv base s) {tid : Option Nat}
    (halign : Aligned base s (.create arg tid))
    (hstep : threadExec base fuel s (.create arg tid) = some s') : ThreadInv base s' := by
  unfold threadExec at hstep
  dsimp only at hstep
  split at hstep
  · rename_i hnew
    obtain ⟨⟨p, r⟩, hmalloc, heq⟩ := Option.map_eq_some_iff.mp hstep
    obtain ⟨fuel', p', r', hmalloc', hr⟩ := halign
    obtain ⟨rfl, rfl⟩ := Prod.mk.inj (malloc_det hmalloc' hmalloc)
    obtain ⟨bs, htiled, hlive⟩ := h.heap.malloc_page hmalloc
    dsimp only at heq
    have hold : ∀ t ∈ s.threads, ∃ b ∈ p'.live, t.block = b.addr + HEADER ∧ b.units = 513 := by
      intro t ht
      obtain ⟨b, hb, haddr, hunits⟩ := h.live t ht
      refine ⟨b, ?_, haddr, hunits⟩
      rcases hlive with ⟨_, hlive⟩ | ⟨c, _, _, _, hlive⟩
      · rwa [hlive]
      · rw [hlive]
        exact List.mem_cons_of_mem _ hb
    have hkeep : ThreadInv base { s with prog := p' } :=
      { heap := Or.inr ⟨bs, htiled⟩, stack := h.stack, live := hold, distinct := h.distinct }
    by_cases hnull : r' = 0
    · rw [if_pos hnull] at heq
      exact heq ▸ hkeep
    · rw [if_neg hnull] at heq
      cases tid with
      | none => exact heq ▸ hkeep
      | some tid =>
        obtain ⟨b, hb, _, hunits, hlive⟩ := hlive.resolve_left (fun hl => hnull hl.1)
        have hbmem : b ∈ p'.live := by
          rw [hlive]
          exact List.mem_cons_self
        rw [hb] at hr
        obtain ⟨_, htiled'⟩ := htiled.clone hbmem hunits hr arg
        subst heq
        rw [hb, pageUp_of_aligned hr]
        rw [pageUp_of_aligned hr] at htiled'
        refine
          { heap := Or.inr ⟨bs, htiled'⟩
            stack := fun t ht => ?_
            live := fun t ht => ?_
            distinct := List.pairwise_cons.mpr ⟨fun t ht => ⟨?_, ?_⟩, h.distinct⟩ }
        · rcases List.mem_cons.mp ht with rfl | ht
          · rfl
          · exact h.stack t ht
        · rcases List.mem_cons.mp ht with rfl | ht
          · exact ⟨b, hbmem, rfl, hunits⟩
          · exact hold t ht
        · intro htid
          exact hnew t ht (congrArg some htid)
        · -- the new block is none of those that were live
          intro hblock
          obtain ⟨c, hc, haddr, _⟩ := h.live t ht
          have hne := htiled.live_nodup
          rw [hlive] at hne
          have := (List.pairwise_cons.mp hne).1 c hc
          dsimp only at hblock
          omega
  · cases hstep

/-- What `join` hands back for a thread is the block of its stack. -/
theorem ThreadInv.joined (h : ThreadInv base s) (htid : ∃ t ∈ s.threads, t.tid = tid) :
    ∃ t b, s.threads.find? (fun t => decide (t.tid = tid)) = some t ∧ t ∈ s.threads ∧
      t.tid = tid ∧ t.tstack = t.block ∧ b ∈ s.prog.live ∧ t.block = after b.addr 1 := by
  obtain ⟨u, hu, hutid⟩ := htid
  have hsome : (s.threads.find? (fun t => decide (t.tid = tid))).isSome = true :=
    List.find?_isSome.mpr ⟨u, hu, decide_eq_true hutid⟩
  obtain ⟨t, hfind⟩ := Option.isSome_iff_exists.mp hsome
  have ht : t ∈ s.threads := List.mem_of_find?_eq_some hfind
  obtain ⟨b, hb, haddr, _⟩ := h.live t ht
  obtain ⟨bs, htiled⟩ := h.heap.tiled hb
  exact ⟨t, b, hfind, ht, by simpa using List.find?_some hfind, h.stack t ht, hb,
    haddr.trans (htiled.after_header hb).symm⟩

theorem ThreadInv.step_join (h : ThreadInv base s) {junk : Nat}
    (hjoin : Aligned base s (.join tid junk))
    (hstep : threadExec base fuel s (.join tid junk) = some s') : ThreadInv base s' := by
  obtain ⟨t, b, hfind, ht, httid, hstack, hb, hblock⟩ := h.joined hjoin
  obtain ⟨bs, htiled⟩ := h.heap.tiled hb
  unfold threadExec thread_join at hstep
  dsimp only at hstep
  rw [hfind] at hstep
  obtain ⟨p, hfree, rfl⟩ := Option.map_eq_some_iff.mp hstep
  -- it is a call of `free` for a live block
  have hexec : exec base fuel s.prog (.free t.tstack) = some p := by
    unfold exec
    rw [if_pos ⟨b, hb, hstack.trans hblock⟩]
    exact hfree
  obtain ⟨⟨bs', htiled'⟩, _, hlive⟩ := htiled.step_free hexec
  have hstays : ∀ v ∈ s.threads.filter (fun v => decide (v.tid ≠ tid)),
      v ∈ s.threads ∧ v.tid ≠ tid := fun v hv =>
    ⟨(List.mem_filter.mp hv).1, of_decide_eq_true (List.mem_filter.mp hv).2⟩
  refine
    { heap := Or.inr ⟨bs', htiled'⟩
      stack := fun v hv => h.stack v (hstays v hv).1
      live := fun v hv => ?_
      distinct := h.distinct.sublist List.filter_sublist }
  obtain ⟨hvmem, hvtid⟩ := hstays v hv
  obtain ⟨c, hc, hcaddr, hcunits⟩ := h.live v hvmem
  refine ⟨c, (hlive c).mpr ⟨hc, ?_⟩, hcaddr, hcunits⟩
  have hsymm : Std.Symm (fun t u : Thread => t.tid ≠ u.tid ∧ t.block ≠ u.block) :=
    ⟨fun _ _ h => ⟨h.1.symm, h.2.symm⟩⟩
  have hne : t ≠ v := by
    rintro rfl
    exact hvtid httid
  rw [hstack, htiled.after_header hc, ← hcaddr]
  exact (h.distinct.forall ht hvmem hne).2

theorem ThreadInv.of_reachable (h : ReachableUnder (threadSystem sb base) (Aligned base) s) :
    ThreadInv base s := by
  have hinit : ∀ s, (threadSystem sb base).init s → ThreadInv base s := by
    rintro s ⟨hfresh, hnil⟩
    exact
      { heap := Or.inl hfresh
        stack := by simp [hnil]
        live := by simp [hnil]
        distinct := by simp [hnil] }
  have hstep : ∀ s c s', ThreadInv base s → Aligned base s c →
      (threadSystem sb base).step s c s' → ThreadInv base s' := by
    rintro s c s' hinv halign ⟨fuel, hexec⟩
    cases c with
    | call c => exact hinv.step_call hexec
    | create arg tid => exact hinv.step_create halign hexec
    | join tid junk => exact hinv.step_join halign hexec
  exact h.invariant hinit hstep

/-- The stack of a thread lies in a block of its own. -/
theorem ThreadInv.stack_inside (h : ThreadInv base s) {t : Thread} (ht : t ∈ s.threads) :
    ∃ b ∈ s.prog.live, t.block = b.addr + HEADER ∧
      ∀ x, (stackPage t.tstack).Has x → b.payload.Has x := by
  obtain ⟨b, hb, haddr, hunits⟩ := h.live t ht
  refine ⟨b, hb, haddr, fun x hx => ?_⟩
  rw [h.stack t ht, haddr] at hx
  have hpayload : b.payload = ⟨b.addr + HEADER, PGSIZE⟩ := by
    unfold Live.payload
    rw [hunits]
    rfl
  rw [hpayload]
  exact hx

end inside

/-- The bytes of `e` are the same before and after the stores of `clone`. -/
def Untouched (p : Program sb) (arg : Word) (stack : Nat) (e : Extent) : Prop :=
  ∀ x, e.Has x → (cloneStores p.heap.mem arg stack).get x = p.heap.mem.get x

section join

variable {base fuel : Nat} {s s' : Threads sb}

/-- The pointer that `thread_join` passes to `free`. -/
def joinFrees (s : Threads sb) (tid junk : Nat) : Nat :=
  match s.threads.find? (fun t => decide (t.tid = tid)) with
  | some t => t.tstack
  | none => junk

/-- What `thread_join` is to free: the pointer that `malloc` returned for the stack
    of the thread, as long as the block is live, and nothing when `join` fails. -/
def MustFree (s : Threads sb) (tid : Nat) (ap : Option Nat) : Prop :=
  match s.threads.find? (fun t => decide (t.tid = tid)) with
  | some t => ap = some t.block ∧ ∃ b ∈ s.prog.live, t.block = after b.addr 1
  | none => ap = none

theorem thread_join_eq (fuel : Nat) (s : Threads sb) (tid junk : Nat) :
    thread_join fuel s tid junk = (s.prog.free fuel (joinFrees s tid junk)).map fun p =>
      { prog := p, threads := s.threads.filter (fun t => decide (t.tid ≠ tid)) } := by
  unfold thread_join joinFrees
  cases hfind : s.threads.find? (fun t => decide (t.tid = tid)) with
  | some t => rfl
  | none =>
    have hself : s.threads.filter (fun t => decide (t.tid ≠ tid)) = s.threads :=
      List.filter_eq_self.mpr (fun t ht => by simpa using List.find?_eq_none.mp hfind t ht)
    simp only [hself]

theorem pageUp_eq_iff : pageUp r = r ↔ r % PGSIZE = 0 := by
  refine ⟨fun h => ?_, pageUp_of_aligned⟩
  by_contra hne
  unfold pageUp at h
  rw [if_pos hne] at h
  unfold PGSIZE ADDRSPACE at *
  omega

/-- The thread that `thread_create` enters, and the block of its stack. -/
theorem HeapInv.created (h : HeapInv base s.prog)
    (hexec : threadExec base fuel s (.create arg (some tid)) = some s')
    (hnew : s'.threads ≠ s.threads) :
    ∃ p r, ∃ b ∈ s'.prog.live, s.prog.malloc base fuel (BitVec.ofNat 32 PGSIZE) = some (p, r) ∧
      s'.threads = ⟨tid, pageUp r, r⟩ :: s.threads ∧ r = after b.addr 1 := by
  unfold threadExec at hexec
  dsimp only at hexec
  split at hexec
  · obtain ⟨⟨p, r⟩, hmalloc, heq⟩ := Option.map_eq_some_iff.mp hexec
    obtain ⟨bs, htiled, hlive⟩ := h.malloc_page hmalloc
    dsimp only at heq
    by_cases hnull : r = 0
    · rw [if_pos hnull] at heq
      subst heq
      exact absurd rfl hnew
    · rw [if_neg hnull] at heq
      subst heq
      obtain ⟨b, hr, _, _, hlive⟩ := hlive.resolve_left (fun hl => hnull hl.1)
      have hb : b ∈ p.live := by
        rw [hlive]
        exact List.mem_cons_self
      exact ⟨p, r, b, hb, hmalloc, rfl, hr.trans (htiled.after_header hb).symm⟩
  · cases hexec

end join

/-- A program with no threads yet. -/
def bootThreads : Threads contiguous := ⟨bootProgram, []⟩

theorem bootThreads_init : (threadSystem contiguous 2048).init bootThreads :=
  ⟨⟨rfl, rfl, rfl, by decide, by decide⟩, rfl⟩

/-- The run that creates the first thread of a program. -/
theorem firstThread : ∃ s, ReachableUnder (threadSystem contiguous 2048) (Aligned 2048) s ∧
    s.threads = [⟨2, 40960, 40960⟩] := by
  have hrun : (threadExec 2048 8 bootThreads (.create 7#32 (some 2))).any (fun s =>
      decide (s.threads = [⟨2, 40960, 40960⟩])) = true := by
    decide +kernel
  have hmalloc : (bootProgram.malloc 2048 8 (BitVec.ofNat 32 PGSIZE)).any (fun r =>
      decide (r.2 % PGSIZE = 0)) = true := by
    decide +kernel
  obtain ⟨s, hs, hthreads⟩ := (Option.any_eq_true _ _).mp hrun
  obtain ⟨⟨p, r⟩, hp, hr⟩ := (Option.any_eq_true _ _).mp hmalloc
  exact ⟨s, .step (.create 7#32 (some 2)) (.init bootThreads_init)
    ⟨8, p, r, hp, of_decide_eq_true hr⟩ ⟨8, hs⟩, of_decide_eq_true hthreads⟩

end Xv6.Umalloc
