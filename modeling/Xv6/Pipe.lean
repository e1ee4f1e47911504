import Xv6.Params
import Xv6.Framework.System
import Xv6.Framework.Ring

/-! # Pipes (`pipe.c`)

    `pipewrite` and `piperead` hold `p->lock` except while they sleep, so
    a call is a sequence of atomic segments: from its start, or from the
    return of `sleep`, up to the next `sleep` or to its return. Segments
    of any number of calls interleave.

    The wakeups (`wakeup(&p->nread)`, `wakeup(&p->nwrite)`) leave the pipe
    as it is. They decide only when a sleeper runs again, and here a
    sleeping call may resume at any time (a kill also ends a sleep), which
    covers every order in which the wakeups can arrive. The last section
    follows the sleepers.
-/

open LTS Ring

namespace Xv6.Pipes

variable {p : Pipe} {taken : Nat} {s : State}

/-! ### State -/

/-- `struct pipe`, without its lock. -/
structure Pipe where
  data      : Fin PIPESIZE → Byte
  /-- number of bytes read -/
  nread     : Word
  /-- number of bytes written -/
  nwrite    : Word
  /-- read fd is still open -/
  readopen  : Bool
  /-- write fd is still open -/
  writeopen : Bool

/-- The pipe as `pipealloc` leaves it: `kalloc` hands out the page with
    whatever `data` it had. -/
def pipealloc (data : Fin PIPESIZE → Byte) : Pipe where
  data      := data
  nread     := 0
  nwrite    := 0
  readopen  := true
  writeopen := true

/-- How a segment of a call ends. -/
inductive Status where
  | sleeping
  | returned (r : Int)
  deriving DecidableEq

/-! ### `pipewrite` -/

/-- `p->nwrite == p->nread + PIPESIZE`. -/
def Pipe.full (p : Pipe) : Prop := p.nwrite = p.nread + BitVec.ofNat 32 PIPESIZE

instance (p : Pipe) : Decidable p.full := inferInstanceAs (Decidable (_ = _))

/-- `p->data[p->nwrite++ % PIPESIZE] = c`. -/
def Pipe.store (p : Pipe) (c : Byte) : Pipe :=
  { p with
    data   := Function.update p.data (Fin.ofNat PIPESIZE p.nwrite.toNat) c
    nwrite := p.nwrite + 1 }

/-- What a segment of `pipewrite` leaves behind. -/
structure WriteSegment where
  pipe   : Pipe
  /-- the loop variable when the segment ends -/
  i      : Nat
  status : Status

/-- The loop of `pipewrite` with `k` bytes of the buffer left, from index
    `i` to the next sleep or to the return. `killed` is what
    `myproc()->killed` reads in this segment. -/
def pipewriteLoop (n : Int) (addr : Nat → Byte) (killed : Bool) :
    (k i : Nat) → Pipe → WriteSegment
  | 0, i, p => { pipe := p, i := i, status := .returned n }
  | k + 1, i, p =>
    if p.full then
      if p.readopen = false ∨ killed = true then
        { pipe := p, i := i, status := .returned (-1) }
      else
        { pipe := p, i := i, status := .sleeping }
    else
      pipewriteLoop n addr killed k (i + 1) (p.store (addr i))

/-- One segment of `pipewrite(p, addr, n)`, resumed at index `i`. -/
def pipewrite (p : Pipe) (addr : Nat → Byte) (n : Int) (killed : Bool) (i : Nat) :
    WriteSegment :=
  pipewriteLoop n addr killed (n - i).toNat i p

/-! ### `piperead` -/

/-- `p->data[p->nread++ % PIPESIZE]`. -/
def Pipe.front (p : Pipe) : Byte := p.data (Fin.ofNat PIPESIZE p.nread.toNat)

/-- The copy loop of `piperead`: at most `k` bytes, fewer if the pipe runs
    empty. -/
def pipereadCopy : (k : Nat) → Pipe → Pipe × List Byte
  | 0, p => (p, [])
  | k + 1, p =>
    if p.nread = p.nwrite then (p, [])
    else
      let rest := pipereadCopy k { p with nread := p.nread + 1 }
      (rest.1, p.front :: rest.2)

/-- What a segment of `piperead` leaves behind. -/
structure ReadSegment where
  pipe   : Pipe
  /-- the bytes stored to `addr[0]`, `addr[1]`, ... -/
  bytes  : List Byte
  status : Status

/-- One segment of `piperead(p, addr, n)`. Nothing is copied before the
    last segment, so a resumed call is in the same position as a new one. -/
def piperead (p : Pipe) (n : Int) (killed : Bool) : ReadSegment :=
  if p.nread = p.nwrite ∧ p.writeopen = true then
    if killed = true then
      { pipe := p, bytes := [], status := .returned (-1) }
    else
      { pipe := p, bytes := [], status := .sleeping }
  else
    let r := pipereadCopy n.toNat p
    { pipe := r.1, bytes := r.2, status := .returned r.2.length }

/-! ### `pipeclose` -/

/-- `pipeclose(p, writable)`, without the `kfree`. -/
def pipeclose (p : Pipe) (writable : Bool) : Pipe :=
  if writable = true then { p with writeopen := false }
  else { p with readopen := false }

/-- Both ends are closed: `pipeclose` frees the page. -/
def Pipe.unused (p : Pipe) : Bool := !p.readopen && !p.writeopen

/-! ### The system -/

/-- A byte stored in the pipe, with the call it comes from and its index
    in that call's buffer. -/
structure Stored where
  call : Nat
  i    : Nat
  byte : Byte

/-- The bytes `addr[i], ..., addr[i + k - 1]` as call `c` stores them. -/
def tagged (c : Nat) (addr : Nat → Byte) (i k : Nat) : List Stored :=
  (List.range' i k).map (fun j => { call := c, i := j, byte := addr j })

/-- A call of `pipewrite`: its arguments, its loop variable and where its
    last segment ended. -/
structure WriteCall where
  addr   : Nat → Byte
  n      : Int
  i      : Nat
  status : Status

/-- A pipe with the calls made on it. `stored` and `delivered` are history:
    all bytes ever stored by `pipewrite` and ever delivered by `piperead`. -/
structure State where
  pipe      : Pipe
  freed     : Bool
  writers   : Nat → Option WriteCall
  /-- the sleeping `piperead` calls with their argument `n` -/
  readers   : Nat → Option Int
  stored    : List Stored
  delivered : List Byte

/-- One atomic segment. Every call has its own number. -/
inductive Label where
  | write (call : Nat) (addr : Nat → Byte) (n : Int) (killed : Bool)
  | writeResume (call : Nat) (killed : Bool)
  | read (call : Nat) (n : Int) (killed : Bool)
  | readResume (call : Nat) (killed : Bool)
  | close (writable : Bool)

/-- Record the outcome of a `pipewrite` segment of call `c` that began at
    index `i`. -/
def State.wrote (s : State) (c : Nat) (addr : Nat → Byte) (n : Int) (i : Nat)
    (seg : WriteSegment) : State :=
  { s with
    pipe    := seg.pipe
    writers := Function.update s.writers c
      (some { addr := addr, n := n, i := seg.i, status := seg.status })
    stored  := s.stored ++ tagged c addr i (seg.i - i) }

/-- Record the outcome of a `piperead` segment of call `c`. -/
def State.didRead (s : State) (c : Nat) (n : Int) (seg : ReadSegment) : State :=
  { s with
    pipe      := seg.pipe
    readers   := Function.update s.readers c
      (if seg.status = .sleeping then some n else none)
    delivered := s.delivered ++ seg.bytes }

/-- The pipe as a labelled transition system. A freed pipe takes no more
    steps. -/
def pipeSystem : System State Label where
  init := fun s =>
    (∃ data, s.pipe = pipealloc data) ∧ s.freed = false ∧
    (∀ c, s.writers c = none) ∧ (∀ c, s.readers c = none) ∧
    s.stored = [] ∧ s.delivered = []
  step := fun s l s' =>
    s.freed = false ∧
    match l with
    | .write c addr n killed =>
        s.writers c = none ∧
        s' = s.wrote c addr n 0 (pipewrite s.pipe addr n killed 0)
    | .writeResume c killed =>
        ∃ w, s.writers c = some w ∧ w.status = .sleeping ∧
        s' = s.wrote c w.addr w.n w.i (pipewrite s.pipe w.addr w.n killed w.i)
    | .read c n killed =>
        s.readers c = none ∧ s' = s.didRead c n (piperead s.pipe n killed)
    | .readResume c killed =>
        ∃ n, s.readers c = some n ∧ s' = s.didRead c n (piperead s.pipe n killed)
    | .close writable =>
        s' = { s with
          pipe  := pipeclose s.pipe writable
          freed := (pipeclose s.pipe writable).unused }


/-! ### Step lemmas

    Each loop is shown once to keep `RingInv`; `hist` is the history of
    the bytes stored and `taken` the number of bytes delivered. -/

/-- The ring of a pipe holds `hist` from index `taken` on. -/
def Holds (p : Pipe) (hist : List Byte) (taken : Nat) : Prop :=
  RingInv p.data p.nread p.nwrite hist taken

theorem pipesize_dvd : PIPESIZE ∣ 2 ^ 32 := by decide

theorem pipesize_lt : PIPESIZE < 2 ^ 32 := by decide

theorem holds_store {hist : List Byte} (h : Holds p hist taken) (hroom : ¬ p.full) (c : Byte) :
    Holds (p.store c) (hist ++ [c]) taken :=
  RingInv.push h pipesize_dvd pipesize_lt hroom c

/-- A `pipewrite` segment stores the bytes between its first and its last
    index, in order, and returns `n` only when it has stored them all. -/
theorem pipewriteLoop_spec (n : Int) (addr : Nat → Byte) (killed : Bool) :
    ∀ (k i : Nat) (p : Pipe) (hist : List Byte), Holds p hist taken →
      let seg := pipewriteLoop n addr killed k i p
      i ≤ seg.i ∧ seg.i ≤ i + k ∧
      Holds seg.pipe (hist ++ (List.range' i (seg.i - i)).map addr) taken ∧
      (seg.i = i + k ∨ seg.status = .sleeping ∨ seg.status = .returned (-1)) := by
  intro k
  induction k with
  | zero =>
    intro i p hist h
    simpa [pipewriteLoop] using h
  | succ k ih =>
    intro i p hist h
    by_cases hfull : p.full
    · by_cases hstop : p.readopen = false ∨ killed = true
      · simpa [pipewriteLoop, hfull, hstop] using h
      · simpa [pipewriteLoop, hfull, hstop] using h
    · -- one byte is stored; the rest of the segment follows by induction
      have hnext := ih (i + 1) (p.store (addr i)) (hist ++ [addr i])
        (holds_store h hfull (addr i))
      simp only [pipewriteLoop, if_neg hfull]
      obtain ⟨hlo, hhi, hholds, hend⟩ := hnext
      generalize pipewriteLoop n addr killed k (i + 1) (p.store (addr i)) = seg at *
      refine ⟨by omega, by omega, ?_, ?_⟩
      · have hlen : seg.i - i = (seg.i - (i + 1)) + 1 := by omega
        rw [hlen, List.range'_succ, List.map_cons]
        simpa using hholds
      · rcases hend with hend | hend
        · exact Or.inl (by omega)
        · exact Or.inr hend

/-- The copy loop of `piperead` delivers the oldest bytes, in order. -/
theorem pipereadCopy_spec {hist : List Byte} :
    ∀ (k : Nat) (p : Pipe) (taken : Nat), Holds p hist taken →
      Holds (pipereadCopy k p).1 hist (taken + (pipereadCopy k p).2.length) ∧
      (pipereadCopy k p).2 = (hist.drop taken).take (pipereadCopy k p).2.length := by
  intro k
  induction k with
  | zero =>
    intro p taken h
    simpa [pipereadCopy] using h
  | succ k ih =>
    intro p taken h
    by_cases hempty : p.nread = p.nwrite
    · simpa [pipereadCopy, hempty] using h
    · obtain ⟨hj, hfront, hpop⟩ := RingInv.pop h pipesize_dvd pipesize_lt hempty
      obtain ⟨hholds, hbytes⟩ := ih { p with nread := p.nread + 1 } (taken + 1) hpop
      simp only [pipereadCopy, if_neg hempty]
      generalize pipereadCopy k { p with nread := p.nread + 1 } = rest at *
      refine ⟨?_, ?_⟩
      · have harith : taken + 1 + rest.2.length = taken + (p.front :: rest.2).length := by
          simp only [List.length_cons]
          omega
        rw [← harith]
        exact hholds
      · rw [List.drop_eq_getElem_cons hj, List.length_cons, List.take_succ_cons, ← hbytes]
        exact congrArg (· :: rest.2) hfront

/-- The copy loop delivers something unless the pipe is empty. -/
theorem pipereadCopy_nonempty {k : Nat} (hk : 0 < k) (hne : p.nread ≠ p.nwrite) :
    0 < (pipereadCopy k p).2.length := by
  cases k with
  | zero => omega
  | succ k => simp [pipereadCopy, hne]

/-- `piperead` with `n > 0` returns `0` only at the end of the stream. -/
theorem piperead_zero {n : Int} {killed : Bool} (hn : 0 < n)
    (h : (piperead p n killed).status = .returned 0) :
    p.nread = p.nwrite ∧ p.writeopen = false := by
  unfold piperead at h
  by_cases hwait : p.nread = p.nwrite ∧ p.writeopen = true
  · cases killed <;> simp [hwait] at h
  · by_cases hempty : p.nread = p.nwrite
    · refine ⟨hempty, ?_⟩
      by_contra hopen
      exact hwait ⟨hempty, by simpa using hopen⟩
    · have hpos : 0 < (pipereadCopy n.toNat p).2.length :=
        pipereadCopy_nonempty (by omega) hempty
      simp only [if_neg hwait, Status.returned.injEq] at h
      omega

theorem piperead_spec {hist : List Byte} (n : Int) (killed : Bool) (h : Holds p hist taken) :
    let seg := piperead p n killed
    Holds seg.pipe hist (taken + seg.bytes.length) ∧
    seg.bytes = (hist.drop taken).take seg.bytes.length := by
  unfold piperead
  by_cases hwait : p.nread = p.nwrite ∧ p.writeopen = true
  · cases killed <;> simpa [hwait] using h
  · simp only [if_neg hwait]
    exact pipereadCopy_spec n.toNat p taken h

/-! ### The invariant -/

/-- The bytes call `c` has stored so far, as its own record tells them. -/
def WriteCall.stored (w : WriteCall) (c : Nat) : List Stored :=
  tagged c w.addr 0 w.i

structure PipeInv (s : State) : Prop where
  /-- the pipe holds what was stored and not yet delivered -/
  holds : Holds s.pipe (s.stored.map Stored.byte) s.delivered.length
  /-- what was delivered is what was stored first -/
  deliver : s.delivered = (s.stored.map Stored.byte).take s.delivered.length
  /-- a call that has not begun has stored nothing -/
  fresh : ∀ c, s.writers c = none → s.stored.filter (fun x => x.call = c) = []
  /-- a call has stored its buffer up to its index, in order -/
  order : ∀ c w, s.writers c = some w →
    s.stored.filter (fun x => x.call = c) = w.stored c
  /-- a call never runs past its buffer -/
  bound : ∀ c w, s.writers c = some w → w.i ≤ w.n.toNat
  /-- a call that returned `n` has stored `n` bytes -/
  complete : ∀ c w, s.writers c = some w → w.status = .returned w.n → w.i = w.n.toNat

theorem pipeInv_init (h : pipeSystem.init s) : PipeInv s := by
  obtain ⟨⟨data, hp⟩, _, hw, _, hst, hdel⟩ := h
  refine ⟨?_, ?_, ?_, ?_, ?_, ?_⟩
  · rw [hp, hst, hdel]
    exact RingInv.nil data
  · simp [hdel]
  · simp [hst]
  · intro c w hc
    rw [hw c] at hc
    cases hc
  · intro c w hc
    rw [hw c] at hc
    cases hc
  · intro c w hc
    rw [hw c] at hc
    cases hc


/-! ### Bytes by call -/

@[simp] theorem map_byte_tagged (c : Nat) (addr : Nat → Byte) (i k : Nat) :
    (tagged c addr i k).map Stored.byte = (List.range' i k).map addr := by
  simp [tagged, Function.comp_def]

theorem filter_tagged_self (c : Nat) (addr : Nat → Byte) (i k : Nat) :
    (tagged c addr i k).filter (fun x => x.call = c) = tagged c addr i k := by
  apply List.filter_eq_self.mpr
  intro x hx
  obtain ⟨j, _, rfl⟩ := List.mem_map.mp hx
  simp

theorem filter_tagged_ne {c c' : Nat} (hne : c' ≠ c) (addr : Nat → Byte) (i k : Nat) :
    (tagged c addr i k).filter (fun x => x.call = c') = [] := by
  apply List.filter_eq_nil_iff.mpr
  intro x hx
  obtain ⟨j, _, rfl⟩ := List.mem_map.mp hx
  simpa using Ne.symm hne

theorem tagged_append (c : Nat) (addr : Nat → Byte) {i j : Nat} (h : i ≤ j) :
    tagged c addr 0 i ++ tagged c addr i (j - i) = tagged c addr 0 j := by
  unfold tagged
  rw [← List.map_append]
  congr 1
  have happ := List.range'_append_1 (s := 0) (m := i) (n := j - i)
  simpa [Nat.add_sub_cancel' h] using happ

/-- `pipewriteLoop_spec` for a whole segment. -/
theorem pipewrite_spec {hist : List Byte} (addr : Nat → Byte) (n : Int) (killed : Bool) {i : Nat}
    (hi : i ≤ n.toNat) (h : Holds p hist taken) :
    let seg := pipewrite p addr n killed i
    i ≤ seg.i ∧ seg.i ≤ n.toNat ∧
    Holds seg.pipe (hist ++ (List.range' i (seg.i - i)).map addr) taken ∧
    (seg.status = .returned n → seg.i = n.toNat) := by
  have hseg := pipewriteLoop_spec n addr killed (n - i).toNat i p hist h
  unfold pipewrite
  generalize pipewriteLoop n addr killed (n - i).toNat i p = seg at *
  obtain ⟨hlo, hhi, hholds, hend⟩ := hseg
  refine ⟨hlo, by omega, hholds, ?_⟩
  intro hret
  rcases hend with hend | hend | hend
  · omega
  · rw [hend] at hret
    cases hret
  · -- `n = -1`: there was nothing to store
    rw [hend, Status.returned.injEq] at hret
    omega

/-- A segment of a call that has stored its first `i` bytes so far keeps the
    invariant. -/
theorem pipeInv_wrote (hinv : PipeInv s) (c : Nat) (addr : Nat → Byte) (n : Int) (killed : Bool)
    (i : Nat) (hi : i ≤ n.toNat)
    (hmine : s.stored.filter (fun x => x.call = c) = tagged c addr 0 i) :
    PipeInv (s.wrote c addr n i (pipewrite s.pipe addr n killed i)) := by
  have hseg := pipewrite_spec addr n killed hi hinv.holds
  generalize pipewrite s.pipe addr n killed i = seg at *
  obtain ⟨hlo, hhi, hholds, hret⟩ := hseg
  have hbytes : ((s.wrote c addr n i seg).stored).map Stored.byte =
      s.stored.map Stored.byte ++ (List.range' i (seg.i - i)).map addr := by
    simp [State.wrote]
  have hself : ∀ w, (s.wrote c addr n i seg).writers c = some w →
      w = { addr := addr, n := n, i := seg.i, status := seg.status } := by
    intro w hw
    simpa [State.wrote, eq_comm] using hw
  have hother : ∀ c', c' ≠ c → (s.wrote c addr n i seg).writers c' = s.writers c' := by
    intro c' hne
    simp [State.wrote, hne]
  refine ⟨?_, ?_, ?_, ?_, ?_, ?_⟩
  · rw [hbytes]
    exact hholds
  · rw [hbytes]
    have hle : s.delivered.length ≤ (s.stored.map Stored.byte).length := hinv.holds.taken_le
    show s.delivered = List.take s.delivered.length _
    rw [List.take_append_of_le_length hle]
    exact hinv.deliver
  · intro c' hc'
    by_cases hcc : c' = c
    · subst hcc
      simp [State.wrote] at hc'
    · rw [hother c' hcc] at hc'
      show (s.stored ++ _).filter _ = _
      rw [List.filter_append, filter_tagged_ne hcc, hinv.fresh c' hc', List.append_nil]
  · intro c' w hw
    show (s.stored ++ _).filter _ = _
    by_cases hcc : c' = c
    · subst hcc
      rw [List.filter_append, filter_tagged_self, hmine, tagged_append c' addr hlo, hself w hw]
      rfl
    · rw [hother c' hcc] at hw
      rw [List.filter_append, filter_tagged_ne hcc, hinv.order c' w hw, List.append_nil]
  · intro c' w hw
    by_cases hcc : c' = c
    · subst hcc
      rw [hself w hw]
      exact hhi
    · rw [hother c' hcc] at hw
      exact hinv.bound c' w hw
  · intro c' w hw
    by_cases hcc : c' = c
    · subst hcc
      rw [hself w hw]
      exact hret
    · rw [hother c' hcc] at hw
      exact hinv.complete c' w hw

/-- A `piperead` segment keeps the invariant. -/
theorem pipeInv_didRead (hinv : PipeInv s) (c : Nat) (n : Int) (killed : Bool) :
    PipeInv (s.didRead c n (piperead s.pipe n killed)) := by
  have hseg := piperead_spec n killed hinv.holds
  generalize piperead s.pipe n killed = seg at *
  obtain ⟨hholds, hbytes⟩ := hseg
  refine ⟨?_, ?_, hinv.fresh, hinv.order, hinv.bound, hinv.complete⟩
  · show Holds seg.pipe _ (s.delivered ++ seg.bytes).length
    rw [List.length_append]
    exact hholds
  · show s.delivered ++ seg.bytes = (s.stored.map Stored.byte).take (s.delivered ++ seg.bytes).length
    rw [List.length_append, List.take_add, ← hbytes, ← hinv.deliver]

theorem pipeInv_step {s' : State} {l : Label} (hinv : PipeInv s) (hstep : pipeSystem.step s l s') :
    PipeInv s' := by
  obtain ⟨_, hstep⟩ := hstep
  cases l with
  | write c addr n killed =>
    obtain ⟨hnew, rfl⟩ := hstep
    exact pipeInv_wrote hinv c addr n killed 0 (Nat.zero_le _)
      (by simpa [tagged] using hinv.fresh c hnew)
  | writeResume c killed =>
    obtain ⟨w, hw, _, rfl⟩ := hstep
    exact pipeInv_wrote hinv c w.addr w.n killed w.i (hinv.bound c w hw)
      (hinv.order c w hw)
  | read c n killed =>
    obtain ⟨_, rfl⟩ := hstep
    exact pipeInv_didRead hinv c n killed
  | readResume c killed =>
    obtain ⟨n, _, rfl⟩ := hstep
    exact pipeInv_didRead hinv c n killed
  | close writable =>
    subst hstep
    refine ⟨?_, hinv.deliver, hinv.fresh, hinv.order, hinv.bound, hinv.complete⟩
    have hholds := hinv.holds
    cases writable <;> exact hholds

theorem pipeInv_reachable (h : Reachable pipeSystem s) : PipeInv s :=
  h.invariant (fun _ => pipeInv_init) (fun _ _ _ => pipeInv_step)

/-! ### FIFO delivery -/

/-- The bytes the ring holds: from the read counter, as many as the wrapped
    distance of the counters. -/
def Pipe.contents (p : Pipe) : List Byte :=
  (List.range (p.nwrite - p.nread).toNat).map
    (fun j => p.data (Fin.ofNat PIPESIZE (p.nread + BitVec.ofNat 32 j).toNat))

/-- The ring holds exactly the undelivered rest of the history. -/
theorem contents_eq {hist : List Byte} (h : Holds p hist taken) : p.contents = hist.drop taken := by
  have hlen : (p.nwrite - p.nread).toNat = hist.length - taken :=
    RingInv.toNat_sub h pipesize_lt
  apply List.ext_getElem
  · simp [Pipe.contents, hlen]
  · intro j h1 h2
    have hj : taken + j < hist.length := by
      simp only [List.length_drop] at h2
      omega
    have hidx : p.nread + BitVec.ofNat 32 j = BitVec.ofNat 32 (taken + j) := by
      have hnread : p.nread = BitVec.ofNat 32 taken := h.nread_eq
      rw [hnread, BitVec.ofNat_add]
    have hheld := h.held (taken + j) hj (by omega)
    simp only [Pipe.contents, List.getElem_map, List.getElem_range, List.getElem_drop]
    rw [hidx, slotIndex_ofNat pipesize_dvd]
    exact hheld

/-- **Pipe FIFO.** In every state reached by any interleaving of the
    segments of any number of calls:
    the counters are at most `PIPESIZE` apart, also after they wrapped;
    the bytes stored are the bytes delivered followed by the bytes in the
    ring, so nothing is lost, duplicated or reordered;
    the bytes of each call were stored in the order of its buffer, all of
    them when it returned `n`;
    and a `piperead` of `n > 0` bytes returns `0` only when the pipe is
    empty and its write end closed. -/
theorem pipe_fifo (s : State) (hreach : Reachable pipeSystem s) :
    (s.pipe.nwrite - s.pipe.nread).toNat ≤ PIPESIZE ∧
    s.delivered <+: s.stored.map Stored.byte ∧
    s.stored.map Stored.byte = s.delivered ++ s.pipe.contents ∧
    (∀ c w, s.writers c = some w →
      s.stored.filter (fun x => x.call = c) = w.stored c ∧
      (w.status = .returned w.n → w.i = w.n.toNat)) ∧
    (∀ x ∈ s.stored, ∃ w, s.writers x.call = some w) ∧
    (∀ (n : Int) (killed : Bool), 0 < n →
      (piperead s.pipe n killed).status = .returned 0 →
      s.pipe.nread = s.pipe.nwrite ∧ s.pipe.writeopen = false) := by
  have hinv := pipeInv_reachable hreach
  have hprefix : s.delivered <+: s.stored.map Stored.byte := by
    rw [hinv.deliver]
    exact List.take_prefix _ _
  refine ⟨?_, hprefix, ?_, ?_, ?_, ?_⟩
  · have hdist := RingInv.toNat_sub hinv.holds pipesize_lt
    have hfits := hinv.holds.fits
    omega
  · rw [contents_eq hinv.holds]
    conv_rhs => rw [hinv.deliver, List.length_take]
    have hle := hinv.holds.taken_le
    rw [Nat.min_eq_left hle, List.take_append_drop]
  · intro c w hw
    exact ⟨hinv.order c w hw, hinv.complete c w hw⟩
  · intro x hx
    cases hw : s.writers x.call with
    | some w => exact ⟨w, rfl⟩
    | none =>
      have hnone := hinv.fresh x.call hw
      have hmem : x ∈ s.stored.filter (fun y => y.call = x.call) := by simp [hx]
      rw [hnone] at hmem
      cases hmem
  · intro n killed hn hret
    exact piperead_zero hn hret


/-- A pipe no call has been made on. -/
def emptyState : State where
  pipe      := pipealloc (fun _ => 0)
  freed     := false
  writers   := fun _ => none
  readers   := fun _ => none
  stored    := []
  delivered := []

/-- The pipe after one call wrote `"ABC"`. -/
def wroteState : State :=
  emptyState.wrote 0 (fun j => BitVec.ofNat 8 (j + 65)) 3 0
    (pipewrite emptyState.pipe (fun j => BitVec.ofNat 8 (j + 65)) 3 false 0)

/-- The same pipe after another call read two bytes. -/
def twoReadState : State := wroteState.didRead 0 2 (piperead wroteState.pipe 2 false)

theorem twoReadState_reachable : Reachable pipeSystem twoReadState := by
  have h0 : Reachable pipeSystem emptyState :=
    .init ⟨⟨_, rfl⟩, rfl, fun _ => rfl, fun _ => rfl, rfl, rfl⟩
  have h1 : Reachable pipeSystem wroteState :=
    .step (.write 0 (fun j => BitVec.ofNat 8 (j + 65)) 3 false) h0
      (by exact ⟨rfl, rfl, rfl⟩)
  exact .step (.read 0 2 false) h1 (by exact ⟨rfl, rfl, rfl⟩)

theorem pipe_fifo_twoReadState :
    twoReadState.delivered = [65, 66] ∧
    twoReadState.delivered <+: twoReadState.stored.map Stored.byte :=
  ⟨by decide, (pipe_fifo twoReadState twoReadState_reachable).2.1⟩

/-! ### Wakeups

    The same segments, with the sleeping calls that no wakeup has reached. -/

/-- The calls asleep on `&p->nread` and on `&p->nwrite`. -/
structure Asleep where
  nread  : List Nat
  nwrite : List Nat

/-- After a segment of `pipewrite` by call `c`, which wakes no reader where it
    returns from inside its loop. -/
def Asleep.wrote (a : Asleep) (c : Nat) (n : Int) (seg : WriteSegment) : Asleep where
  nread  := if seg.status = .sleeping ∨ n ≤ seg.i then [] else a.nread
  nwrite := if seg.status = .sleeping then c :: a.nwrite else a.nwrite.erase c

/-- After a segment of `piperead` by call `c`. -/
def Asleep.didRead (a : Asleep) (c : Nat) (seg : ReadSegment) : Asleep where
  nread  := if seg.status = .sleeping then c :: a.nread else a.nread.erase c
  nwrite := if seg.status = .sleeping ∨ seg.status = .returned (-1) then a.nwrite else []

/-- What a step does to the sleeping calls. -/
def Asleep.next (a : Asleep) (s : State) : Label → Asleep
  | .write c addr n killed => a.wrote c n (pipewrite s.pipe addr n killed 0)
  | .writeResume c killed =>
    (s.writers c).elim a fun w => a.wrote c w.n (pipewrite s.pipe w.addr w.n killed w.i)
  | .read c n killed => a.didRead c (piperead s.pipe n killed)
  | .readResume c killed => (s.readers c).elim a fun n => a.didRead c (piperead s.pipe n killed)
  | .close true => { a with nread := [] }
  | .close false => { a with nwrite := [] }

def wakeSystem : System (State × Asleep) Label where
  init := fun s => pipeSystem.init s.1 ∧ s.2 = ⟨[], []⟩
  step := fun s l s' => pipeSystem.step s.1 l s'.1 ∧ s'.2 = s.2.next s.1 l

/-- No writer is killed. -/
def WritersLive (_ : State × Asleep) : Label → Prop
  | .write _ _ _ killed | .writeResume _ killed => killed = false
  | _ => True

/-- Who sleeps has to wait. -/
structure WakeInv (p : Pipe) (a : Asleep) : Prop where
  readers : ∀ c ∈ a.nread, p.readopen = true → p.nread = p.nwrite ∧ p.writeopen = true
  writers : ∀ c ∈ a.nwrite, p.full ∧ p.readopen = true

/-- A segment of `pipewrite` sleeps on a full pipe, and otherwise it is done or has no
    reader. -/
theorem pipewriteLoop_end (n : Int) (addr : Nat → Byte) : ∀ (k i : Nat) (p : Pipe),
    let seg := pipewriteLoop n addr false k i p
    seg.pipe.readopen = p.readopen ∧ (p.full → seg.pipe = p) ∧
    (seg.status = .sleeping → seg.pipe.full ∧ p.readopen = true) ∧
    (seg.status = .sleeping ∨ seg.i = i + k ∨ p.readopen = false) := by
  intro k
  induction k with
  | zero =>
    intro i p
    simp [pipewriteLoop]
  | succ k ih =>
    intro i p
    by_cases hfull : p.full
    · cases hopen : p.readopen <;> simp [pipewriteLoop, hfull, hopen]
    · obtain ⟨hopen, _, hsleep, hend⟩ := ih (i + 1) (p.store (addr i))
      simp only [pipewriteLoop, if_neg hfull]
      refine ⟨hopen, fun h => absurd h hfull, hsleep, ?_⟩
      rw [show i + (k + 1) = i + 1 + k by omega]
      exact hend

theorem WakeInv.wrote {a : Asleep} (h : WakeInv p a) (c : Nat) (addr : Nat → Byte) (n : Int)
    (i : Nat) : WakeInv (pipewrite p addr n false i).pipe
      (a.wrote c n (pipewrite p addr n false i)) := by
  have hseg := pipewriteLoop_end n addr (n - i).toNat i p
  unfold pipewrite Asleep.wrote
  generalize pipewriteLoop n addr false (n - i).toNat i p = seg at *
  obtain ⟨hopen, hsame, hsleep, hend⟩ := hseg
  refine ⟨fun c' hc' hread => ?_, fun c' hc' => ?_⟩
  · -- a segment that wakes no reader has found the read end closed
    dsimp only at hc'
    split at hc'
    · cases hc'
    · have hclosed : p.readopen = false := by grind
      rw [hopen, hclosed] at hread
      cases hread
  · dsimp only at hc'
    split at hc'
    · rename_i hst
      rw [hopen]
      exact hsleep hst
    · have hfull := h.writers c' (List.mem_of_mem_erase hc')
      rw [hsame hfull.1]
      exact hfull

theorem pipereadCopy_readopen (k : Nat) (p : Pipe) :
    (pipereadCopy k p).1.readopen = p.readopen := by
  induction k generalizing p with
  | zero => rfl
  | succ k ih =>
    rw [pipereadCopy]
    split
    · rfl
    · exact ih _

theorem WakeInv.didRead {a : Asleep} (h : WakeInv p a) (c : Nat) (n : Int) (killed : Bool) :
    WakeInv (piperead p n killed).pipe (a.didRead c (piperead p n killed)) := by
  unfold piperead
  split
  · rename_i hwait
    cases killed with
    | false => exact ⟨fun _ _ _ => hwait, h.writers⟩
    | true => exact ⟨fun c' hc' => h.readers c' (List.mem_of_mem_erase hc'), h.writers⟩
  · rename_i hgo
    refine ⟨fun c' hc' hread => ?_, fun c' hc' => absurd hc' List.not_mem_nil⟩
    exact absurd (h.readers c' (List.mem_of_mem_erase hc')
      ((pipereadCopy_readopen _ p).symm.trans hread)) hgo

theorem wakeInv_step {s s' : State × Asleep} {l : Label} (h : WakeInv s.1.pipe s.2)
    (hlive : WritersLive s l) (hstep : wakeSystem.step s l s') : WakeInv s'.1.pipe s'.2 := by
  obtain ⟨⟨_, hpipe⟩, hasleep⟩ := hstep
  rw [hasleep]
  cases l with
  | write c addr n killed =>
    obtain rfl : killed = false := hlive
    rw [hpipe.2]
    exact h.wrote c addr n 0
  | writeResume c killed =>
    obtain rfl : killed = false := hlive
    obtain ⟨w, hw, _, hpipe⟩ := hpipe
    rw [hpipe, Asleep.next, hw]
    exact h.wrote c w.addr w.n w.i
  | read c n killed =>
    rw [hpipe.2]
    exact h.didRead c n killed
  | readResume c killed =>
    obtain ⟨n, hn, hpipe⟩ := hpipe
    rw [hpipe, Asleep.next, hn]
    exact h.didRead c n killed
  | close writable =>
    rw [hpipe]
    cases writable with
    | true => exact ⟨fun _ hc => absurd hc List.not_mem_nil, h.writers⟩
    | false => exact ⟨fun _ _ hread => (by cases hread), fun _ hc => absurd hc List.not_mem_nil⟩

/-- **No lost wakeup.** In every run in which no writer is killed: a reader sleeps only
    while the pipe is empty and open for writing, a writer only while it is full and open
    for reading. -/
theorem pipe_no_lost_wakeup {s : State × Asleep} (h : ReachableUnder wakeSystem WritersLive s) :
    (∀ c ∈ s.2.nread, s.1.pipe.readopen = true →
      s.1.pipe.nread = s.1.pipe.nwrite ∧ s.1.pipe.writeopen = true) ∧
    ∀ c ∈ s.2.nwrite, s.1.pipe.full ∧ s.1.pipe.readopen = true := by
  have hinv : WakeInv s.1.pipe s.2 := by
    refine h.invariant (fun s h0 => ?_) (fun _ _ _ => wakeInv_step)
    rw [h0.2]
    exact ⟨fun _ hc => absurd hc List.not_mem_nil, fun _ hc => absurd hc List.not_mem_nil⟩
  exact ⟨hinv.readers, hinv.writers⟩

/-- A reader goes to sleep. -/
theorem pipe_no_lost_wakeup_reader : ∃ s, ReachableUnder wakeSystem WritersLive s ∧
    0 ∈ s.2.nread ∧ s.1.pipe.nread = s.1.pipe.nwrite := by
  have h0 : ReachableUnder wakeSystem WritersLive (emptyState, ⟨[], []⟩) :=
    .init ⟨⟨⟨_, rfl⟩, rfl, fun _ => rfl, fun _ => rfl, rfl, rfl⟩, rfl⟩
  have h1 : ReachableUnder wakeSystem WritersLive (_, _) :=
    .step (.read 0 2 false) h0 (by exact trivial) ⟨by exact ⟨rfl, rfl, rfl⟩, rfl⟩
  exact ⟨_, h1, List.mem_cons_self, ((pipe_no_lost_wakeup h1).1 0 List.mem_cons_self rfl).1⟩

end Xv6.Pipes
