import Xv6.Params
import Xv6.Framework.System
import Xv6.Framework.DList
import Xv6.Framework.Places

/-! # The Buffer Cache

    `bio.c` over the memory disk of `memide.c`, used by any number of
    processes. A step is one critical section of `bcache.lock`, or what a
    process does to a buffer while it holds the buffer's sleep lock; taking
    and giving back a sleep lock is a step too.

    A client gets a buffer with `bread`, may change its data in place and
    then has to call `bwrite` or `log_write`, and gives it back with
    `brelse`. It may hold several buffers. `commit` is such a client:
    `write_log`, `write_head` and `install_trans` go through the same
    functions. Of `log_write` only the pinning of the buffer is modelled
    here.

    Ghost fields: `writes` lists what has been written, newest first,
    `touched` says that a buffer was changed and not written yet, and
    `released` when a buffer was last given back.
-/

open LTS DList Function

namespace Xv6.Bio

abbrev BIdx : Type := Fin NBUF

instance : NeZero NBUF := ⟨by decide⟩

/-! ### State -/

/-- `struct buf`, without its lock and its links. -/
structure Buf (D : Type) where
  /-- `flags & B_VALID` -/
  valid : Bool
  /-- `flags & B_DIRTY` -/
  dirty : Bool
  dev : Nat
  blockno : Nat
  refcnt : Nat
  data : D

/-- The buffer for another block: `flags = 0; refcnt = 1`. -/
def Buf.recycle {D : Type} (b : Buf D) (dev blockno : Nat) : Buf D :=
  { b with dev := dev, blockno := blockno, valid := false, dirty := false, refcnt := 1 }

/-- The block a buffer is for. -/
def Buf.block {D : Type} (b : Buf D) : Nat × Nat := (b.dev, b.blockno)

/-- Where a process is. -/
inductive Pc where
  /-- not in a call -/
  | idle
  /-- in `bget`, at `acquiresleep(&b->lock)` -/
  | waiting (dev blockno : Nat) (b : BIdx)
  /-- in `bread`, back from `bget` -/
  | locked (dev blockno : Nat) (b : BIdx)
  /-- in `brelse`, past `releasesleep(&b->lock)` -/
  | releasing (b : BIdx)
  deriving DecidableEq

inductive BPanic where
  | bgetNoBuffers
  | bwrite
  | brelse
  | iderwNotLocked
  | iderwNothingToDo
  | iderwNotDisk1
  | iderwOutOfRange
  deriving DecidableEq

structure State (P D : Type) where
  buf : BIdx → Buf D
  /-- `bcache.head` and the `prev` and `next` of all buffers -/
  links : Links BIdx
  /-- the holders of the sleep locks -/
  lock : BIdx → Option P
  /-- `memdisk` -/
  disk : Nat → D
  pc : P → Pc
  panic : Option BPanic
  touched : BIdx → Bool
  writes : List (Nat × Nat × D)
  released : BIdx → Nat
  clock : Nat

variable {P D : Type} [DecidableEq P] {dev blockno : Nat}

namespace State

def goto (s : State P D) (p : P) (pc : Pc) : State P D :=
  { s with pc := Function.update s.pc p pc }

def setBuf (s : State P D) (b : BIdx) (nb : Buf D) : State P D :=
  { s with buf := Function.update s.buf b nb }

/-- The buffer that caches a block. -/
def cached (s : State P D) (dev blockno : Nat) (b : BIdx) : Bool :=
  (s.buf b).dev == dev && (s.buf b).blockno == blockno

/-- The buffer may be recycled. -/
def unused (s : State P D) (b : BIdx) : Bool :=
  (s.buf b).refcnt == 0 && !(s.buf b).dirty

/-- `bget`, up to `release(&bcache.lock)`. The loops test their condition at
    most once for each buffer and once for the head. -/
def bget (s : State P D) (p : P) (dev blockno : Nat) : Option (State P D) :=
  match walk s.links.next (s.cached dev blockno) (NBUF + 1) (s.links.next none) with
  | none => none
  | some (some b) =>
    some ((s.setBuf b { s.buf b with refcnt := (s.buf b).refcnt + 1 }).goto p
      (.waiting dev blockno b))
  | some none =>
    match walk s.links.prev s.unused (NBUF + 1) (s.links.prev none) with
    | none => none
    | some (some b) =>
      some ((s.setBuf b ((s.buf b).recycle dev blockno)).goto p (.waiting dev blockno b))
    | some none => some { s with panic := some .bgetNoBuffers }

def iderw (disksize : Nat) (s : State P D) (p : P) (b : BIdx) : State P D :=
  if s.lock b ≠ some p then { s with panic := some .iderwNotLocked }
  else if (s.buf b).valid && !(s.buf b).dirty then { s with panic := some .iderwNothingToDo }
  else if (s.buf b).dev ≠ 1 then { s with panic := some .iderwNotDisk1 }
  else if disksize ≤ (s.buf b).blockno then { s with panic := some .iderwOutOfRange }
  else if (s.buf b).dirty then
    { s.setBuf b { s.buf b with dirty := false, valid := true } with
      disk := Function.update s.disk (s.buf b).blockno (s.buf b).data }
  else s.setBuf b { s.buf b with data := s.disk (s.buf b).blockno, valid := true }

/-- The rest of `bread`, after `bget`. -/
def bread (disksize : Nat) (s : State P D) (p : P) (b : BIdx) : State P D :=
  (if (s.buf b).valid then s else s.iderw disksize p b).goto p .idle

/-- `b->data` has been given to the disk or to the log. -/
def wrote (s : State P D) (b : BIdx) : State P D :=
  { s with
    touched := Function.update s.touched b false
    writes := ((s.buf b).dev, (s.buf b).blockno, (s.buf b).data) :: s.writes }

def bwrite (disksize : Nat) (s : State P D) (p : P) (b : BIdx) : State P D :=
  if s.lock b ≠ some p then { s with panic := some .bwrite }
  else ((s.setBuf b { s.buf b with dirty := true }).iderw disksize p b).wrote b

/-- `log_write`, as far as the buffer goes. -/
def log_write (s : State P D) (b : BIdx) : State P D :=
  (s.setBuf b { s.buf b with dirty := true }).wrote b

/-- A client changes `b->data`. -/
def modify (s : State P D) (b : BIdx) (d : D) : State P D :=
  { s.setBuf b { s.buf b with data := d } with touched := Function.update s.touched b true }

/-- `brelse`, up to `releasesleep(&b->lock)`. -/
def brelse (s : State P D) (p : P) (b : BIdx) : State P D :=
  if s.lock b ≠ some p then { s with panic := some .brelse }
  else { s.goto p (.releasing b) with lock := Function.update s.lock b none }

/-- `brelse`, from `acquire(&bcache.lock)` on. -/
def unref (s : State P D) (p : P) (b : BIdx) : State P D :=
  let s₁ := (s.setBuf b { s.buf b with refcnt := (s.buf b).refcnt - 1 }).goto p .idle
  let s₂ := { s₁ with
    released := Function.update s.released b (s.clock + 1)
    clock := s.clock + 1 }
  if (s₂.buf b).refcnt = 0 then { s₂ with links := (s₂.links.unlink b).pushFront b } else s₂

end State

/-! ### Steps -/

inductive Label (P D : Type) where
  | bget (p : P) (dev blockno : Nat)
  /-- `acquiresleep(&b->lock)` returns -/
  | lock (p : P)
  | bread (p : P)
  | modify (p : P) (b : BIdx) (d : D)
  | bwrite (p : P) (b : BIdx)
  | log_write (p : P) (b : BIdx)
  | brelse (p : P) (b : BIdx)
  | unref (p : P)

/-- One step; `none` where it is not possible. A buffer is used by the process
    that holds it, and given back when its changes have been written. -/
def next (disksize : Nat) (s : State P D) (l : Label P D) : Option (State P D) :=
  if s.panic ≠ none then none
  else match l with
    | .bget p dev blockno => if s.pc p = .idle then s.bget p dev blockno else none
    | .lock p =>
      match s.pc p with
      | .waiting dev blockno b =>
        if s.lock b = none then
          some { s.goto p (.locked dev blockno b) with lock := Function.update s.lock b (some p) }
        else none
      | _ => none
    | .bread p =>
      match s.pc p with
      | .locked _ _ b => some (s.bread disksize p b)
      | _ => none
    | .modify p b d => if s.pc p = .idle ∧ s.lock b = some p then some (s.modify b d) else none
    | .bwrite p b =>
      if s.pc p = .idle ∧ s.lock b = some p then some (s.bwrite disksize p b) else none
    | .log_write p b =>
      if s.pc p = .idle ∧ s.lock b = some p then some (s.log_write b) else none
    | .brelse p b =>
      if s.pc p = .idle ∧ s.lock b = some p ∧ s.touched b = false then some (s.brelse p b) else none
    | .unref p =>
      match s.pc p with
      | .releasing b => some (s.unref p b)
      | _ => none

/-- `binit`: the buffers are linked in, each behind the head. -/
def binit : Links BIdx := (List.finRange NBUF).foldl (fun d b => d.pushFront b) .empty

/-- The cache after `binit`: `bcache` is zeroed memory. -/
def boot (P : Type) (image : Nat → D) (zero : D) : State P D where
  buf := fun _ => { valid := false, dirty := false, dev := 0, blockno := 0, refcnt := 0, data := zero }
  links := binit
  lock := fun _ => none
  disk := image
  pc := fun _ => .idle
  panic := none
  touched := fun _ => false
  writes := []
  released := fun _ => 0
  clock := 0

/-- The cache over a disk of `disksize` blocks that starts out as `image`. -/
def bcache (P : Type) [DecidableEq P] (disksize : Nat) (image : Nat → D) :
    System (State P D) (Label P D) where
  init := fun s => ∃ zero, s = boot P image zero
  step := fun s l s' => next disksize s l = some s'

/-- What was last written to a block, or what is on the disk. -/
def latest (image : Nat → D) (writes : List (Nat × Nat × D)) (blockno : Nat) : D :=
  match writes.find? (fun w => w.1 = 1 ∧ w.2.1 = blockno) with
  | some w => w.2.2
  | none => image blockno

/-- What a step can be. -/
inductive Move (disksize : Nat) (s : State P D) : Label P D → State P D → Prop where
  | bget {p : P} {dev blockno : Nat} {s' : State P D} (hp : s.pc p = .idle)
      (hget : s.bget p dev blockno = some s') : Move disksize s (.bget p dev blockno) s'
  | lock {p : P} {dev blockno : Nat} {b : BIdx} (hp : s.pc p = .waiting dev blockno b)
      (hfree : s.lock b = none) : Move disksize s (.lock p)
        { s.goto p (.locked dev blockno b) with lock := update s.lock b (some p) }
  | bread {p : P} {dev blockno : Nat} {b : BIdx} (hp : s.pc p = .locked dev blockno b) :
      Move disksize s (.bread p) (s.bread disksize p b)
  | modify {p : P} {b : BIdx} {d : D} (hp : s.pc p = .idle) (hlock : s.lock b = some p) :
      Move disksize s (.modify p b d) (s.modify b d)
  | bwrite {p : P} {b : BIdx} (hp : s.pc p = .idle) (hlock : s.lock b = some p) :
      Move disksize s (.bwrite p b) (s.bwrite disksize p b)
  | log_write {p : P} {b : BIdx} (hp : s.pc p = .idle) (hlock : s.lock b = some p) :
      Move disksize s (.log_write p b) (s.log_write b)
  | brelse {p : P} {b : BIdx} (hp : s.pc p = .idle) (hlock : s.lock b = some p)
      (hclean : s.touched b = false) : Move disksize s (.brelse p b)
        { s.goto p (.releasing b) with lock := update s.lock b none }
  | unref {p : P} {b : BIdx} (hp : s.pc p = .releasing b) :
      Move disksize s (.unref p) (s.unref p b)

theorem move_of_next {disksize : Nat} {s s' : State P D} {l : Label P D}
    (h : next disksize s l = some s') : s.panic = none ∧ Move disksize s l s' := by
  unfold next at h
  split at h
  · cases h
  · next hp =>
    refine ⟨by simpa using hp, ?_⟩
    cases l with
    | bget p dev blockno =>
      simp only [Option.ite_none_right_eq_some] at h
      exact .bget h.1 h.2
    | lock p =>
      cases hpc : s.pc p with
      | waiting dev blockno b =>
        simp only [hpc, Option.ite_none_right_eq_some, Option.some.injEq] at h
        exact h.2 ▸ .lock hpc h.1
      | _ => simp [hpc] at h
    | bread p =>
      cases hpc : s.pc p with
      | locked dev blockno b =>
        simp only [hpc, Option.some.injEq] at h
        exact h ▸ .bread hpc
      | _ => simp [hpc] at h
    | modify p b d =>
      obtain ⟨⟨hp, hlock⟩, rfl⟩ := of_guard h
      exact .modify hp hlock
    | bwrite p b =>
      obtain ⟨⟨hp, hlock⟩, rfl⟩ := of_guard h
      exact .bwrite hp hlock
    | log_write p b =>
      obtain ⟨⟨hp, hlock⟩, rfl⟩ := of_guard h
      exact .log_write hp hlock
    | brelse p b =>
      obtain ⟨⟨hpc, hlock, hclean⟩, rfl⟩ := of_guard h
      unfold State.brelse
      rw [if_neg (not_not.mpr hlock)]
      exact .brelse hpc hlock hclean
    | unref p =>
      cases hpc : s.pc p with
      | releasing b =>
        simp only [hpc, Option.some.injEq] at h
        exact h ▸ .unref hpc
      | _ => simp [hpc] at h

section fields

variable (s : State P D) (p : P) (b : BIdx) (nb : Buf D) (pc : Pc)

@[simp] theorem buf_goto : (s.goto p pc).buf = s.buf := rfl

section

omit [DecidableEq P]

@[simp] theorem buf_setBuf_self : (s.setBuf b nb).buf b = nb := update_self _ _ _

theorem buf_setBuf_of_ne {c : BIdx} (h : c ≠ b) : (s.setBuf b nb).buf c = s.buf c :=
  update_of_ne h _ _

/-- What the new contents agree on with the old. -/
theorem setBuf_agree {α : Type} (f : Buf D → α) {b : BIdx} {nb : Buf D}
    (hf : f nb = f (s.buf b)) (c : BIdx) : f ((s.setBuf b nb).buf c) = f (s.buf c) := by
  by_cases hcb : c = b
  · rw [hcb, buf_setBuf_self, hf]
  · rw [buf_setBuf_of_ne s b nb hcb]

end

/-- `unref` but for the links. -/
theorem unref_eq : ∃ links, s.unref p b =
    { (s.setBuf b { s.buf b with refcnt := (s.buf b).refcnt - 1 }).goto p .idle with
      links := links
      released := update s.released b (s.clock + 1)
      clock := s.clock + 1 } := by
  unfold State.unref
  simp only
  split
  · exact ⟨_, rfl⟩
  · exact ⟨s.links, rfl⟩

end fields

/-! ### The list of buffers -/

/-- `x` was given back after `y`, or neither ever was. -/
def Later (s : State P D) (x y : BIdx) : Prop :=
  s.released y < s.released x ∨ (s.released x = 0 ∧ s.released y = 0)

/-- The list holds all buffers; those that nobody refers to are in the order in
    which they were given back, the last one first. -/
structure ListInv (s : State P D) (xs : List BIdx) : Prop where
  linked : Circular s.links xs
  all : ∀ b, b ∈ xs
  order : xs.Pairwise (fun x y => (s.buf x).refcnt = 0 → (s.buf y).refcnt = 0 → Later s x y)
  clock : ∀ b, s.released b ≤ s.clock

namespace ListInv

variable {s s' : State P D} {xs : List BIdx}

section

omit [DecidableEq P]

theorem length (h : ListInv s xs) : xs.length < NBUF + 1 := by
  have hcard : xs.length ≤ Fintype.card BIdx := h.linked.nodup.length_le_card
  rw [Fintype.card_fin] at hcard
  exact Nat.lt_succ_of_le hcard

/-- A step that gives no buffer back. -/
theorem congr (h : ListInv s xs) (hl : s'.links = s.links) (hr : s'.released = s.released)
    (hclk : s'.clock = s.clock) (hc : ∀ b, (s'.buf b).refcnt = 0 → (s.buf b).refcnt = 0) :
    ListInv s' xs := by
  refine ⟨hl ▸ h.linked, h.all, h.order.imp (fun {x y} hxy hx hy => ?_), fun b => ?_⟩
  · have hlater := hxy (hc x hx) (hc y hy)
    unfold Later at hlater ⊢
    rwa [hr]
  · rw [hr, hclk]
    exact h.clock b

theorem setBuf {b : BIdx} {nb : Buf D} (h : ListInv s xs) (hbuf : s'.buf = update s.buf b nb)
    (hl : s'.links = s.links) (hr : s'.released = s.released) (hclk : s'.clock = s.clock)
    (hc : nb.refcnt = 0 → (s.buf b).refcnt = 0) : ListInv s' xs := by
  refine h.congr hl hr hclk (fun c hz => ?_)
  by_cases hcb : c = b
  · rw [hbuf, hcb, update_self] at hz
    rw [hcb]
    exact hc hz
  · rwa [hbuf, update_of_ne hcb] at hz

end

/-- `brelse` moves a buffer that nobody refers to any more to the front. -/
theorem unref (h : ListInv s xs) (p : P) (b : BIdx) : ∃ ys, ListInv (s.unref p b) ys := by
  obtain ⟨links, heq⟩ := unref_eq s p b
  have hbuf : ∀ x, x ≠ b → ((s.unref p b).buf x).refcnt = (s.buf x).refcnt := by
    intro x hx
    rw [heq]
    exact congrArg Buf.refcnt (buf_setBuf_of_ne s b _ hx)
  have hrel : ∀ x, x ≠ b → (s.unref p b).released x = s.released x := by
    intro x hx
    rw [heq]
    exact update_of_ne hx _ _
  have hrelb : (s.unref p b).released b = s.clock + 1 := by
    rw [heq]
    exact update_self _ _ _
  have hclk : (s.unref p b).clock = s.clock + 1 := by rw [heq]
  have hnew : ((s.unref p b).buf b).refcnt = (s.buf b).refcnt - 1 := by
    rw [heq]
    exact congrArg Buf.refcnt (buf_setBuf_self s b _)
  have hclock : ∀ x, (s.unref p b).released x ≤ (s.unref p b).clock := by
    intro x
    rw [hclk]
    by_cases hx : x = b
    · rw [hx, hrelb]
    · rw [hrel x hx]
      exact Nat.le_succ_of_le (h.clock x)
  -- the order among the others is what it was
  have hothers : ∀ x y, x ≠ b → y ≠ b →
      ((s.buf x).refcnt = 0 → (s.buf y).refcnt = 0 → Later s x y) →
      ((s.unref p b).buf x).refcnt = 0 → ((s.unref p b).buf y).refcnt = 0 →
      Later (s.unref p b) x y := by
    intro x y hx hy hxy hx0 hy0
    rw [hbuf x hx] at hx0
    rw [hbuf y hy] at hy0
    have hlater := hxy hx0 hy0
    unfold Later at hlater ⊢
    rwa [hrel x hx, hrel y hy]
  by_cases hzero : (s.buf b).refcnt - 1 = 0
  · obtain ⟨l, r, rfl⟩ := List.append_of_mem (h.all b)
    have hnodup := h.linked.nodup
    have hb : b ∉ l ++ r := by
      rw [List.nodup_append] at hnodup
      intro hmem
      rcases List.mem_append.mp hmem with hl | hr
      · exact hnodup.2.2 b hl b List.mem_cons_self rfl
      · exact (List.nodup_cons.mp hnodup.2.1).1 hr
    have hlinks : (s.unref p b).links = (s.links.unlink b).pushFront b := by
      simp only [State.unref, State.setBuf, State.goto, update_self, if_pos hzero]
    refine ⟨b :: (l ++ r), hlinks ▸ h.linked.unlink.pushFront hb, fun x => ?_, ?_, hclock⟩
    · have := h.all x
      simp only [List.mem_append, List.mem_cons] at this ⊢
      tauto
    · refine List.pairwise_cons.mpr ⟨fun y hy _ _ => Or.inl ?_, ?_⟩
      · have hyb : y ≠ b := fun heq => hb (heq ▸ hy)
        rw [hrel y hyb, hrelb]
        exact Nat.lt_succ_of_le (h.clock y)
      · have hsub : (l ++ r).Sublist (l ++ b :: r) :=
          List.Sublist.append_left (List.sublist_cons_self b r) l
        refine (h.order.sublist hsub).imp_of_mem (fun {x y} hx hy hxy => ?_)
        exact hothers x y (fun heq => hb (heq ▸ hx)) (fun heq => hb (heq ▸ hy)) hxy
  · have hlinks : (s.unref p b).links = s.links := by
      simp only [State.unref, State.setBuf, State.goto, update_self, if_neg hzero]
    have hb0 : ((s.unref p b).buf b).refcnt ≠ 0 := by rwa [hnew]
    refine ⟨xs, hlinks ▸ h.linked, h.all, h.order.imp (fun {x y} hxy hx0 hy0 => ?_), hclock⟩
    -- `b` is still in use, so neither is `b`
    have hx : x ≠ b := fun heq => hb0 (heq ▸ hx0)
    have hy : y ≠ b := fun heq => hb0 (heq ▸ hy0)
    exact hothers x y hx hy hxy hx0 hy0

end ListInv

/-- Linking in a list of new buffers. -/
theorem circular_foldl_pushFront (bs : List BIdx) : ∀ {d : Links BIdx} {xs : List BIdx},
    Circular d xs → (bs.reverse ++ xs).Nodup →
    Circular (bs.foldl (fun d b => d.pushFront b) d) (bs.reverse ++ xs) := by
  induction bs with
  | nil => exact fun h _ => h
  | cons b bs ih =>
    intro d xs h hn
    rw [List.reverse_cons, List.append_assoc, List.singleton_append] at hn ⊢
    have hb : b ∉ xs := (List.nodup_cons.mp (List.nodup_append.mp hn).2.1).1
    exact ih (h.pushFront hb) hn

theorem circular_binit : Circular binit (List.finRange NBUF).reverse := by
  have hn : ((List.finRange NBUF).reverse ++ []).Nodup := by
    rw [List.append_nil]
    exact List.nodup_reverse.mpr (List.nodup_finRange NBUF)
  have h := circular_foldl_pushFront (List.finRange NBUF) circular_empty hn
  rwa [List.append_nil] at h

/-! ### The invariant -/

/-- A reference to `b` is held there, without its lock. -/
def Pc.refers (b : BIdx) : Pc → Bool
  | .waiting _ _ c => c == b
  | .releasing c => c == b
  | _ => false

section invariant

variable [Fintype P] (disksize : Nat) (image : Nat → D)

structure CacheInv (s : State P D) : Prop where
  list : ∃ xs, ListInv s xs
  /-- `refcnt` counts the holder of the lock and those before or past it -/
  count : ∀ b, (s.buf b).refcnt =
    (if (s.lock b).isSome then 1 else 0) + (At s.pc (Pc.refers b)).card
  unique : ∀ a b, (s.buf a).dev ≠ 0 → (s.buf a).dev = (s.buf b).dev →
    (s.buf a).blockno = (s.buf b).blockno → a = b
  /-- the buffer that `bget` found stays the buffer of the block -/
  found : ∀ p dev blockno b,
    s.pc p = .waiting dev blockno b ∨ s.pc p = .locked dev blockno b →
    (s.buf b).dev = dev ∧ (s.buf b).blockno = blockno
  locked : ∀ p dev blockno b, s.pc p = .locked dev blockno b →
    s.lock b = some p ∧ s.touched b = false
  /-- past `bread` the data is there -/
  held : s.panic = none → ∀ p b, s.lock b = some p →
    (∀ dev blockno, s.pc p ≠ .locked dev blockno b) → (s.buf b).valid = true
  valid : ∀ b, (s.buf b).valid = true → (s.buf b).dev = 1 ∧ (s.buf b).blockno < disksize
  dirty : ∀ b, (s.buf b).dirty = true → (s.buf b).valid = true
  touched : ∀ b, s.touched b = true → (s.lock b).isSome = true ∧ (s.buf b).valid = true
  data : ∀ b, (s.buf b).valid = true → s.touched b = false →
    (s.buf b).data = latest image s.writes (s.buf b).blockno
  /-- the disk has what no buffer is dirty with -/
  disk : ∀ blockno, (∀ b, (s.buf b).dev = 1 → (s.buf b).blockno = blockno →
    (s.buf b).dirty = false) → s.disk blockno = latest image s.writes blockno

end invariant

/-- `p` goes to `a`; the buffer `b` gets the contents `nb` and the holder `o`. -/
structure Uses (s s' : State P D) (p : P) (a : Pc) (b : BIdx) (nb : Buf D) (o : Option P) :
    Prop where
  pc : s'.pc = update s.pc p a
  buf : s'.buf = update s.buf b nb
  lock : s'.lock = update s.lock b o
  disk : s'.disk = s.disk := by rfl
  touched : s'.touched = s.touched := by rfl
  writes : s'.writes = s.writes := by rfl
  panic : s'.panic = s.panic := by rfl

theorem latest_cons_self (image : Nat → D) (ws : List (Nat × Nat × D)) (n : Nat) (d : D) :
    latest image ((1, n, d) :: ws) n = d := by
  simp [latest]

theorem latest_cons_of_ne (image : Nat → D) (ws : List (Nat × Nat × D)) {n m : Nat} (d : D)
    (h : m ≠ n) : latest image ((1, n, d) :: ws) m = latest image ws m := by
  simp [latest, Ne.symm h]

/-- What `bget` does to a cache whose list is in order. -/
theorem bget_cases {s s' : State P D} {xs : List BIdx} (h : ListInv s xs) {p : P}
    (hs : s.bget p dev blockno = some s') :
    (∃ b, (s.buf b).dev = dev ∧ (s.buf b).blockno = blockno ∧
      s' = (s.setBuf b { s.buf b with refcnt := (s.buf b).refcnt + 1 }).goto p
        (.waiting dev blockno b)) ∨
    ((∀ b, ¬ ((s.buf b).dev = dev ∧ (s.buf b).blockno = blockno)) ∧
      ((∃ b, (s.buf b).refcnt = 0 ∧ (s.buf b).dirty = false ∧
        (∀ c, c ≠ b → (s.buf c).refcnt = 0 → (s.buf c).dirty = false → Later s c b) ∧
        s' = (s.setBuf b ((s.buf b).recycle dev blockno)).goto p (.waiting dev blockno b)) ∨
       s' = { s with panic := some .bgetNoBuffers })) := by
  unfold State.bget at hs
  rw [h.linked.walk_next h.length, h.linked.walk_prev h.length] at hs
  simp only at hs
  cases hfind : xs.find? (s.cached dev blockno) with
  | some b =>
    rw [hfind] at hs
    have hc := List.find?_some hfind
    simp only [State.cached, Bool.and_eq_true, beq_iff_eq] at hc
    exact Or.inl ⟨b, hc.1, hc.2, (Option.some.inj hs).symm⟩
  | none =>
    rw [hfind] at hs
    refine Or.inr ⟨fun b hb => ?_, ?_⟩
    · have hc := List.find?_eq_none.mp hfind b (h.all b)
      simp [State.cached, hb.1, hb.2] at hc
    · cases hrec : xs.reverse.find? s.unused with
      | none =>
        rw [hrec] at hs
        exact Or.inr (Option.some.inj hs).symm
      | some b =>
        rw [hrec] at hs
        obtain ⟨hu, l, r, hsplit, hl⟩ := List.find?_eq_some_iff_append.mp hrec
        simp only [State.unused, Bool.and_eq_true, beq_iff_eq, Bool.not_eq_true'] at hu
        refine Or.inl ⟨b, hu.1, hu.2, fun c hcb hc0 hcd => ?_, (Option.some.inj hs).symm⟩
        -- the other candidates are before `b` in the list
        have hcr : c ∈ r := by
          have hmem : c ∈ l ++ b :: r := hsplit ▸ List.mem_reverse.mpr (h.all c)
          rcases List.mem_append.mp hmem with hcl | hcbr
          · have := hl c hcl
            simp [State.unused, hc0, hcd] at this
          · exact (List.mem_cons.mp hcbr).resolve_left hcb
        have hxs : xs = r.reverse ++ b :: l.reverse := by
          have := congrArg List.reverse hsplit
          simpa using this
        have horder := h.order
        rw [hxs, List.pairwise_append] at horder
        exact horder.2.2 c (List.mem_reverse.mpr hcr) b List.mem_cons_self hc0 hu.1

/-- `bget` comes to an end. -/
theorem bget_isSome {s : State P D} {xs : List BIdx} (h : ListInv s xs) (p : P)
    (dev blockno : Nat) : (s.bget p dev blockno).isSome = true := by
  unfold State.bget
  rw [h.linked.walk_next h.length, h.linked.walk_prev h.length]
  simp only
  split
  · contradiction
  · rfl
  · split
    · contradiction
    · rfl
    · rfl

namespace CacheInv

variable [Fintype P] {disksize : Nat} {image : Nat → D} {s s' : State P D}

section

variable (h : CacheInv disksize image s) {b : BIdx} {p : P}

include h

omit [DecidableEq P] in
/-- Nobody uses a buffer whose `refcnt` is 0. -/
theorem unreferenced (hb : (s.buf b).refcnt = 0) :
    s.lock b = none ∧ ∀ p, (s.pc p).refers b = false := by
  have hcount := h.count b
  rw [hb] at hcount
  have hlock : (s.lock b).isSome = false := by
    by_contra hne
    rw [if_pos ((Bool.not_eq_false _).mp hne)] at hcount
    omega
  rw [hlock] at hcount
  have hempty : At s.pc (Pc.refers b) = ∅ := Finset.card_eq_zero.mp (by simpa using hcount.symm)
  refine ⟨by simpa using hlock, fun p => ?_⟩
  by_contra hne
  have hmem : p ∈ At s.pc (Pc.refers b) := mem_at.mpr (by simpa using hne)
  rw [hempty] at hmem
  cases hmem

omit [DecidableEq P] in
theorem untouched (hfree : s.lock b = none) : s.touched b = false := by
  by_contra hne
  have := (h.touched b ((Bool.not_eq_false _).mp hne)).1
  rw [hfree] at this
  cases this

omit [DecidableEq P] in
/-- What is on the disk, when the buffer of the block is clean. -/
theorem disk_of_clean (hdev : (s.buf b).dev = 1) (hclean : (s.buf b).dirty = false) :
    s.disk (s.buf b).blockno = latest image s.writes (s.buf b).blockno := by
  refine h.disk _ (fun c hc hcn => ?_)
  have hcb : c = b := h.unique c b (by rw [hc]; exact one_ne_zero) (hc.trans hdev.symm) hcn
  rw [hcb]
  exact hclean

/-- The rest of the cache does not depend on what happens to `b`, which keeps
    its block or gets one that no buffer has. -/
theorem change {a : Pc} {nb : Buf D} {o : Option P} (hu : Uses s s' p a b nb o)
    (hlist : ∃ xs, ListInv s' xs)
    (hcount : nb.refcnt = (if o.isSome then 1 else 0) + (At (update s.pc p a) (Pc.refers b)).card)
    (haway : ∀ c, c ≠ b → a.refers c = (s.pc p).refers c)
    (hblock : nb.block = (s.buf b).block ∧ ((s.buf b).valid = true → nb.valid = true) ∨
      (s.buf b).refcnt = 0 ∧ (s.buf b).dirty = false ∧ nb.valid = false ∧
        ∀ c, (s.buf c).block ≠ nb.block)
    (hdirty : nb.dirty = (s.buf b).dirty)
    (hdata : nb.valid = true → (s.buf b).valid = true ∧ nb.data = (s.buf b).data ∨
      nb.dev = 1 ∧ nb.blockno < disksize ∧ nb.data = latest image s.writes nb.blockno)
    (hold : ∀ dev n c, s.pc p = .locked dev n c → c = b ∧ (s.panic = none → nb.valid = true))
    (hfound : ∀ dev n c, a = .waiting dev n c ∨ a = .locked dev n c → c = b ∧ nb.block = (dev, n))
    (hlock : (s.lock b = none ∧ o = some p ∧ ∃ dev n, a = .locked dev n b) ∨
      (∀ dev n c, a ≠ .locked dev n c) ∧
        (o = s.lock b ∨ s.lock b = some p ∧ o = none ∧ s.touched b = false)) :
    CacheInv disksize image s' := by
  have hself : s'.buf b = nb := by rw [hu.buf, update_self]
  have hother : ∀ c, c ≠ b → s'.buf c = s.buf c := fun c hc => by rw [hu.buf, update_of_ne hc]
  have hlself : s'.lock b = o := by rw [hu.lock, update_self]
  have hlother : ∀ c, c ≠ b → s'.lock c = s.lock c := fun c hc => by rw [hu.lock, update_of_ne hc]
  have hpself : s'.pc p = a := by rw [hu.pc, update_self]
  have hpother : ∀ q, q ≠ p → s'.pc q = s.pc q := fun q hq => by rw [hu.pc, update_of_ne hq]
  have hunique : ∀ c, nb.dev ≠ 0 → (s.buf c).dev = nb.dev → (s.buf c).blockno = nb.blockno →
      c = b := by
    intro c hne hdev hno
    rcases hblock with ⟨hsame, _⟩ | ⟨_, _, _, hmiss⟩
    · obtain ⟨hdev', hno'⟩ := Prod.mk.inj hsame
      exact h.unique c b (hdev ▸ hne) (hdev.trans hdev') (hno.trans hno')
    · exact absurd (Prod.ext hdev hno) (hmiss c)
  have hnew : nb.valid = true → nb.dev = 1 ∧ nb.blockno < disksize ∧
      (s.touched b = false → nb.data = latest image s.writes nb.blockno) := by
    intro hv
    rcases hdata hv with ⟨hv', hdata'⟩ | ⟨hdev, hlt, hdata'⟩
    · rcases hblock with ⟨hsame, _⟩ | ⟨_, _, hnot, _⟩
      · obtain ⟨hdev, hno⟩ := Prod.mk.inj hsame
        rw [hdev, hno, hdata']
        exact ⟨(h.valid b hv').1, (h.valid b hv').2, h.data b hv'⟩
      · rw [hnot] at hv
        cases hv
    · exact ⟨hdev, hlt, fun _ => hdata'⟩
  refine ⟨hlist, fun c => ?_, fun c d hne hdev hno => ?_, fun q dev n c hq => ?_,
    fun q dev n c hq => ?_, fun hnone q c hq hnl => ?_, fun c hv => ?_, fun c hd => ?_,
    fun c ht => ?_, fun c hv ht => ?_, fun n hn => ?_⟩
  · rw [hu.pc]
    by_cases hcb : c = b
    · rw [hcb, hself, hlself]
      exact hcount
    · rw [hother c hcb, hlother c hcb, at_keep s.pc _ (haway c hcb)]
      exact h.count c
  · by_cases hcb : c = b
    · rw [hcb, hself] at hne hdev hno
      by_cases hdb : d = b
      · rw [hcb, hdb]
      · rw [hother d hdb] at hdev hno
        exact absurd (hunique d hne hdev.symm hno.symm) hdb
    · rw [hother c hcb] at hne hdev hno
      by_cases hdb : d = b
      · rw [hdb, hself] at hdev hno
        exact absurd (hunique c (hdev ▸ hne) hdev hno) hcb
      · rw [hother d hdb] at hdev hno
        exact h.unique c d hne hdev hno
  · by_cases hqp : q = p
    · rw [hqp, hpself] at hq
      obtain ⟨hcb, hnb⟩ := hfound dev n c hq
      rw [hcb, hself]
      exact Prod.mk.inj hnb
    · rw [hpother q hqp] at hq
      have hbefore := h.found q dev n c hq
      by_cases hcb : c = b
      · rw [hcb] at hq hbefore ⊢
        rcases hblock with ⟨hsame, _⟩ | ⟨hzero, _⟩
        · obtain ⟨hdev, hno⟩ := Prod.mk.inj hsame
          rw [hself, hdev, hno]
          exact hbefore
        · obtain ⟨hfree, hrefs⟩ := h.unreferenced hzero
          rcases hq with hq | hq
          · have := hrefs q
            simp [hq, Pc.refers] at this
          · rw [(h.locked q dev n b hq).1] at hfree
            cases hfree
      · rw [hother c hcb]
        exact hbefore
  · rw [hu.touched]
    by_cases hqp : q = p
    · rw [hqp, hpself] at hq
      rcases hlock with ⟨hfree, ho, _⟩ | ⟨hnot, _⟩
      · rw [(hfound dev n c (Or.inr hq)).1, hlself, ho, hqp]
        exact ⟨rfl, h.untouched hfree⟩
      · exact absurd hq (hnot dev n c)
    · rw [hpother q hqp] at hq
      obtain ⟨hq', ht⟩ := h.locked q dev n c hq
      refine ⟨?_, ht⟩
      by_cases hcb : c = b
      · rw [hcb] at hq' ⊢
        rw [hlself]
        rcases hlock with ⟨hfree, _⟩ | ⟨_, heq | ⟨hown, _⟩⟩
        · rw [hfree] at hq'
          cases hq'
        · rw [heq]
          exact hq'
        · exact absurd (Option.some.inj (hq'.symm.trans hown)) hqp
      · rw [hlother c hcb]
        exact hq'
  · rw [hu.panic] at hnone
    by_cases hcb : c = b
    · rw [hcb] at hq hnl ⊢
      rw [hlself] at hq
      rw [hself]
      rcases hlock with ⟨_, ho, dev, n, ha⟩ | ⟨_, heq | ⟨_, ho, _⟩⟩
      · rw [ho] at hq
        cases hq
        exact absurd (hpself.trans ha) (hnl dev n)
      · by_cases hl : ∃ dev n, s.pc q = .locked dev n b
        · obtain ⟨dev, n, hl⟩ := hl
          have hqp : q = p := by
            by_contra hne
            exact hnl dev n ((hpother q hne).trans hl)
          exact (hold dev n b (hqp ▸ hl)).2 hnone
        · rw [heq] at hq
          have hv := h.held hnone q b hq (fun dev n hl' => hl ⟨dev, n, hl'⟩)
          rcases hblock with ⟨_, hkept⟩ | ⟨hzero, _⟩
          · exact hkept hv
          · rw [(h.unreferenced hzero).1] at hq
            cases hq
      · rw [ho] at hq
        cases hq
    · rw [hother c hcb]
      refine h.held hnone q c ((hlother c hcb).symm.trans hq) (fun dev n hl => ?_)
      by_cases hqp : q = p
      · exact hcb (hold dev n c (hqp ▸ hl)).1
      · exact hnl dev n ((hpother q hqp).trans hl)
  · by_cases hcb : c = b
    · rw [hcb, hself] at hv ⊢
      exact ⟨(hnew hv).1, (hnew hv).2.1⟩
    · rw [hother c hcb] at hv ⊢
      exact h.valid c hv
  · by_cases hcb : c = b
    · rw [hcb, hself] at hd ⊢
      rw [hdirty] at hd
      rcases hblock with ⟨_, hkept⟩ | ⟨_, hclean, _⟩
      · exact hkept (h.dirty b hd)
      · rw [hclean] at hd
        cases hd
    · rw [hother c hcb] at hd ⊢
      exact h.dirty c hd
  · rw [hu.touched] at ht
    obtain ⟨hl, hv⟩ := h.touched c ht
    by_cases hcb : c = b
    · rw [hcb] at hl hv ht ⊢
      rw [hlself, hself]
      rcases hlock with ⟨hfree, _⟩ | ⟨_, heq | ⟨_, _, hclean⟩⟩
      · rw [hfree] at hl
        cases hl
      · rw [heq]
        rcases hblock with ⟨_, hkept⟩ | ⟨hzero, _⟩
        · exact ⟨hl, hkept hv⟩
        · rw [(h.unreferenced hzero).1] at hl
          cases hl
      · rw [hclean] at ht
        cases ht
    · rw [hlother c hcb, hother c hcb]
      exact ⟨hl, hv⟩
  · rw [hu.touched] at ht
    rw [hu.writes]
    by_cases hcb : c = b
    · rw [hcb] at hv ht ⊢
      rw [hself] at hv ⊢
      exact (hnew hv).2.2 ht
    · rw [hother c hcb] at hv ⊢
      exact h.data c hv ht
  · rw [hu.disk, hu.writes]
    refine h.disk n (fun c hc hcn => ?_)
    by_cases hcb : c = b
    · rw [hcb] at hc hcn ⊢
      rcases hblock with ⟨hsame, _⟩ | ⟨_, hclean, _⟩
      · obtain ⟨hdev, hno⟩ := Prod.mk.inj hsame
        have := hn b (by rw [hself, hdev, hc]) (by rw [hself, hno, hcn])
        rwa [hself, hdirty] at this
      · exact hclean
    · have := hn c (by rwa [hother c hcb]) (by rwa [hother c hcb])
      rwa [hother c hcb] at this

/-- `bget` finds the block. -/
theorem hit (hp : s.pc p = .idle) (hdev : (s.buf b).dev = dev) (hno : (s.buf b).blockno = blockno) :
    CacheInv disksize image ((s.setBuf b { s.buf b with refcnt := (s.buf b).refcnt + 1 }).goto p
      (.waiting dev blockno b)) := by
  obtain ⟨xs, hxs⟩ := h.list
  refine h.change { pc := rfl, buf := rfl, lock := (update_eq_self b s.lock).symm }
    ⟨xs, hxs.setBuf rfl rfl rfl rfl nofun⟩ ?_
    (fun c hcb => by rw [hp]; simp [Pc.refers, Ne.symm hcb]) (Or.inl ⟨rfl, id⟩) rfl
    (fun hv => Or.inl ⟨hv, rfl⟩) (fun _ _ _ hl => by rw [hp] at hl; cases hl) (fun _ _ c hc => ?_)
    (Or.inr ⟨nofun, Or.inl rfl⟩)
  · have henter := card_at_enter s.pc (Pc.refers b) (p := p) (a := .waiting dev blockno b)
      (by rw [hp]; rfl) (by simp [Pc.refers])
    rw [henter, ← Nat.add_assoc, ← h.count b]
  · rcases hc with hc | hc <;> cases hc
    exact ⟨rfl, Prod.ext hdev hno⟩

/-- `bget` recycles a buffer. -/
theorem recycle (hp : s.pc p = .idle)
    (hmiss : ∀ c, ¬ ((s.buf c).dev = dev ∧ (s.buf c).blockno = blockno))
    (hzero : (s.buf b).refcnt = 0) (hclean : (s.buf b).dirty = false) :
    CacheInv disksize image
      ((s.setBuf b ((s.buf b).recycle dev blockno)).goto p (.waiting dev blockno b)) := by
  obtain ⟨xs, hxs⟩ := h.list
  refine h.change { pc := rfl, buf := rfl, lock := (update_eq_self b s.lock).symm }
    ⟨xs, hxs.setBuf rfl rfl rfl rfl nofun⟩ ?_
    (fun c hcb => by rw [hp]; simp [Pc.refers, Ne.symm hcb])
    (Or.inr ⟨hzero, hclean, rfl, fun c hc => hmiss c (Prod.mk.inj hc)⟩) hclean.symm nofun
    (fun _ _ _ hl => by rw [hp] at hl; cases hl) (fun _ _ c hc => ?_) (Or.inr ⟨nofun, Or.inl rfl⟩)
  · have henter := card_at_enter s.pc (Pc.refers b) (p := p) (a := .waiting dev blockno b)
      (by rw [hp]; rfl) (by simp [Pc.refers])
    rw [henter, ← Nat.add_assoc, ← h.count b, hzero]
    rfl
  · rcases hc with hc | hc <;> cases hc
    exact ⟨rfl, rfl⟩

/-- `bget` returns with the buffer locked. -/
theorem lockBuf (hp : s.pc p = .waiting dev blockno b) (hfree : s.lock b = none) :
    CacheInv disksize image
      { s.goto p (.locked dev blockno b) with lock := update s.lock b (some p) } := by
  obtain ⟨xs, hxs⟩ := h.list
  refine h.change { pc := rfl, buf := (update_eq_self b s.buf).symm, lock := rfl }
    ⟨xs, hxs.congr rfl rfl rfl (fun _ hc => hc)⟩ ?_
    (fun c hcb => by rw [hp]; simp [Pc.refers, Ne.symm hcb]) (Or.inl ⟨rfl, id⟩) rfl
    (fun hv => Or.inl ⟨hv, rfl⟩) (fun _ _ _ hl => by rw [hp] at hl; cases hl) (fun _ _ c hc => ?_)
    (Or.inl ⟨hfree, rfl, dev, blockno, rfl⟩)
  · -- the reference moves to the holder of the lock
    have hleave := card_at_leave s.pc (Pc.refers b) (p := p) (a := .locked dev blockno b)
      (by rw [hp]; simp [Pc.refers]) rfl
    have hcount := h.count b
    rw [hfree] at hcount
    simp only [Option.isSome_none, Option.isSome_some, Bool.false_eq_true, if_false, if_true]
      at hcount ⊢
    omega
  · have hfound := h.found p dev blockno b (Or.inl hp)
    rcases hc with hc | hc <;> cases hc
    exact ⟨rfl, Prod.ext hfound.1 hfound.2⟩

/-- `brelse` gives the lock back. -/
theorem unlockBuf (hp : s.pc p = .idle) (hheld : s.lock b = some p) (hclean : s.touched b = false) :
    CacheInv disksize image
      { s.goto p (.releasing b) with lock := update s.lock b none } := by
  obtain ⟨xs, hxs⟩ := h.list
  refine h.change { pc := rfl, buf := (update_eq_self b s.buf).symm, lock := rfl }
    ⟨xs, hxs.congr rfl rfl rfl (fun _ hc => hc)⟩ ?_
    (fun c hcb => by rw [hp]; simp [Pc.refers, Ne.symm hcb]) (Or.inl ⟨rfl, id⟩) rfl
    (fun hv => Or.inl ⟨hv, rfl⟩) (fun _ _ _ hl => by rw [hp] at hl; cases hl)
    (fun _ _ _ hc => by rcases hc with hc | hc <;> cases hc)
    (Or.inr ⟨nofun, Or.inr ⟨hheld, rfl, hclean⟩⟩)
  -- the holder of the lock becomes one that is past it
  have henter := card_at_enter s.pc (Pc.refers b) (p := p) (a := .releasing b)
    (by rw [hp]; rfl) (by simp [Pc.refers])
  have hcount := h.count b
  rw [hheld] at hcount
  simp only [Option.isSome_none, Option.isSome_some, Bool.false_eq_true, if_false, if_true]
    at hcount ⊢
  omega

/-- The last part of `brelse`. -/
theorem unref (hp : s.pc p = .releasing b) : CacheInv disksize image (s.unref p b) := by
  obtain ⟨xs, hxs⟩ := h.list
  have hlist := hxs.unref p b
  obtain ⟨links, heq⟩ := unref_eq s p b
  rw [heq] at hlist ⊢
  refine h.change { pc := rfl, buf := rfl, lock := (update_eq_self b s.lock).symm } hlist ?_
    (fun c hcb => by rw [hp]; simp [Pc.refers, Ne.symm hcb]) (Or.inl ⟨rfl, id⟩) rfl
    (fun hv => Or.inl ⟨hv, rfl⟩) (fun _ _ _ hl => by rw [hp] at hl; cases hl)
    (fun _ _ _ hc => by rcases hc with hc | hc <;> cases hc) (Or.inr ⟨nofun, Or.inl rfl⟩)
  have hleave := card_at_leave s.pc (Pc.refers b) (p := p) (a := .idle)
    (by rw [hp]; simp [Pc.refers]) rfl
  have hcount := h.count b
  show (s.buf b).refcnt - 1 = _
  omega

section

omit [DecidableEq P]

/-- No other buffer has the block of a buffer with data. -/
theorem blockno_ne {c : BIdx} (hb : (s.buf b).dev = 1) (hc : (s.buf c).dev = 1) (hcb : c ≠ b) :
    (s.buf c).blockno ≠ (s.buf b).blockno := by
  intro heq
  exact hcb (h.unique c b (by rw [hc]; exact one_ne_zero) (hc.trans hb.symm) heq)

/-- The holder of `b` changes its data, or writes it. -/
theorem store {nb : Buf D} {touched : BIdx → Bool}
    {disk : Nat → D} {writes : List (Nat × Nat × D)} (hlock : s.lock b = some p)
    (hidle : s.pc p = .idle) (hvalid : (s.buf b).valid = true) (hid : nb.dev = (s.buf b).dev ∧
      nb.blockno = (s.buf b).blockno ∧ nb.refcnt = (s.buf b).refcnt ∧ nb.valid = true)
    (htouched : ∀ c, c ≠ b → touched c = s.touched c)
    (hdisk : ∀ n, n ≠ (s.buf b).blockno → disk n = s.disk n)
    (hlatest : ∀ n, n ≠ (s.buf b).blockno → latest image writes n = latest image s.writes n)
    (hdata : touched b = false → nb.data = latest image writes (s.buf b).blockno)
    (hclean : nb.dirty = false →
      disk (s.buf b).blockno = latest image writes (s.buf b).blockno) :
    CacheInv disksize image
      { s.setBuf b nb with touched := touched, disk := disk, writes := writes } := by
  obtain ⟨hdev, hno, href, hval⟩ := hid
  have hb1 := (h.valid b hvalid).1
  have hself := buf_setBuf_self s b nb
  have hother : ∀ c, c ≠ b → (s.setBuf b nb).buf c = s.buf c :=
    fun c hc => buf_setBuf_of_ne s b nb hc
  -- a buffer keeps its block and its references
  have hdevs := setBuf_agree s Buf.dev hdev
  have hnos := setBuf_agree s Buf.blockno hno
  have hrefs := setBuf_agree s Buf.refcnt href
  have hvals := setBuf_agree s Buf.valid (hval.trans hvalid.symm)
  obtain ⟨xs, hxs⟩ := h.list
  refine ⟨⟨xs, hxs.congr rfl rfl rfl (fun c hc => (hrefs c).symm.trans hc)⟩,
    fun c => (hrefs c).trans (h.count c), fun c d hne hde hbl => ?_, fun q dev n c hq => ?_,
    fun q dev n c hq => ?_, fun hnone q c hq hnl => (hvals c).trans (h.held hnone q c hq hnl), fun c hv => ?_,
    fun c hd => ?_, fun c ht => ?_, fun c hv ht => ?_, fun n hn => ?_⟩
  · simp only [hdevs, hnos] at hne hde hbl
    exact h.unique c d hne hde hbl
  · simp only [hdevs, hnos]
    exact h.found q dev n c hq
  · -- the holder of `b` is past `bread`
    obtain ⟨hl, ht⟩ := h.locked q dev n c hq
    have hcb : c ≠ b := by
      rintro rfl
      have hqp : q = p := Option.some.inj (hl.symm.trans hlock)
      have hq' : s.pc q = .locked dev n c := hq
      rw [hqp, hidle] at hq'
      cases hq'
    exact ⟨hl, (htouched c hcb).trans ht⟩
  · simp only [hdevs, hnos]
    exact h.valid c ((hvals c).symm.trans hv)
  · refine (hvals c).trans ?_
    by_cases hcb : c = b
    · rw [hcb]
      exact hvalid
    · have hd' : ((s.setBuf b nb).buf c).dirty = true := hd
      rw [hother c hcb] at hd'
      exact h.dirty c hd'
  · by_cases hcb : c = b
    · rw [hcb]
      exact ⟨Option.isSome_iff_exists.mpr ⟨p, hlock⟩, (hvals b).trans hvalid⟩
    · have ht' : touched c = true := ht
      rw [htouched c hcb] at ht'
      exact ⟨(h.touched c ht').1, (hvals c).trans (h.touched c ht').2⟩
  · simp only [hnos]
    by_cases hcb : c = b
    · rw [hcb] at ht ⊢
      rw [hself]
      exact hdata ht
    · have hv' : (s.buf c).valid = true := (hvals c).symm.trans hv
      have hne := h.blockno_ne hb1 (h.valid c hv').1 hcb
      rw [hother c hcb, hlatest _ hne]
      exact h.data c hv' ((htouched c hcb).symm.trans ht)
  · by_cases hn' : n = (s.buf b).blockno
    · rw [hn']
      refine hclean ?_
      have := hn b ((hdevs b).trans hb1) ((hnos b).trans hn'.symm)
      rwa [show _ = nb from hself] at this
    · show disk n = latest image writes n
      rw [hdisk n hn', hlatest n hn']
      refine h.disk n (fun c hc hcn => ?_)
      have hcb : c ≠ b := by
        rintro rfl
        exact hn' hcn.symm
      have := hn c ((hdevs c).trans hc) ((hnos c).trans hcn)
      rwa [show _ = s.buf c from hother c hcb] at this

theorem modify (hlock : s.lock b = some p) (hidle : s.pc p = .idle)
    (hvalid : (s.buf b).valid = true) (d : D) : CacheInv disksize image (s.modify b d) := by
  refine h.store hlock hidle hvalid ⟨rfl, rfl, rfl, hvalid⟩ (fun c hc => update_of_ne hc _ _)
    (fun _ _ => rfl) (fun _ _ => rfl) (fun ht => ?_) (fun hd => ?_)
  · rw [update_self] at ht
    cases ht
  · exact h.disk_of_clean (h.valid b hvalid).1 hd

theorem log_write (hlock : s.lock b = some p) (hidle : s.pc p = .idle)
    (hvalid : (s.buf b).valid = true) : CacheInv disksize image (s.log_write b) := by
  have hb1 := (h.valid b hvalid).1
  have heq : s.log_write b =
      { s.setBuf b { s.buf b with dirty := true } with
        touched := update s.touched b false
        disk := s.disk
        writes := (1, (s.buf b).blockno, (s.buf b).data) :: s.writes } := by
    unfold State.log_write State.wrote
    rw [buf_setBuf_self, ← hb1]
    rfl
  rw [heq]
  refine h.store hlock hidle hvalid ⟨rfl, rfl, rfl, hvalid⟩ (fun c hc => update_of_ne hc _ _)
    (fun _ _ => rfl) (fun n hn => latest_cons_of_ne image _ _ hn) (fun _ => ?_) (fun hd => ?_)
  · exact (latest_cons_self image _ _ _).symm
  · cases hd

end

/-- `iderw` on a buffer of the disk that has something to write. -/
theorem iderw_dirty (hlock : s.lock b = some p) (hvalid : (s.buf b).valid = true) :
    (s.setBuf b { s.buf b with dirty := true }).iderw disksize p b =
      { s.setBuf b { s.buf b with dirty := false } with
        disk := update s.disk (s.buf b).blockno (s.buf b).data } := by
  obtain ⟨hdev, hrange⟩ := h.valid b hvalid
  unfold State.iderw
  rw [buf_setBuf_self]
  have hheld : (s.setBuf b { s.buf b with dirty := true }).lock b = some p := hlock
  rw [if_neg (by simpa using hheld)]
  simp only [hdev, ne_eq, not_true_eq_false, if_false, Bool.not_true, Bool.and_false,
    Bool.false_eq_true, if_neg (Nat.not_le.mpr hrange), if_true]
  simp only [State.setBuf, update_idem, hvalid]

theorem bwrite (hlock : s.lock b = some p) (hidle : s.pc p = .idle)
    (hvalid : (s.buf b).valid = true) : CacheInv disksize image (s.bwrite disksize p b) := by
  have hb1 := (h.valid b hvalid).1
  have heq : s.bwrite disksize p b =
      { s.setBuf b { s.buf b with dirty := false } with
        touched := update s.touched b false
        disk := update s.disk (s.buf b).blockno (s.buf b).data
        writes := (1, (s.buf b).blockno, (s.buf b).data) :: s.writes } := by
    unfold State.bwrite
    rw [if_neg (by simpa using hlock), h.iderw_dirty hlock hvalid]
    unfold State.wrote
    simp only [buf_setBuf_self, hb1]
    rfl
  rw [heq]
  refine h.store hlock hidle hvalid ⟨rfl, rfl, rfl, hvalid⟩
    (fun c hc => update_of_ne hc _ _) (fun n hn => update_of_ne hn _ _)
    (fun n hn => latest_cons_of_ne image _ _ hn) (fun _ => ?_) (fun _ => ?_)
  · exact (latest_cons_self image _ _ _).symm
  · rw [update_self]
    exact (latest_cons_self image _ _ _).symm

/-- A process is back from `bread`, with the data that was there or with that
    of the disk. -/
theorem backFromBread {nb : Buf D} (hp : s.pc p = .locked dev blockno b)
    (hsame : nb = { s.buf b with data := nb.data, valid := nb.valid })
    (hkept : (s.buf b).valid = true → nb.valid = true)
    (hdata : nb.valid = true → (s.buf b).valid = true ∧ nb.data = (s.buf b).data ∨
      nb.dev = 1 ∧ nb.blockno < disksize ∧ nb.data = latest image s.writes nb.blockno)
    (hdone : s.panic = none → nb.valid = true) :
    CacheInv disksize image ((s.setBuf b nb).goto p .idle) := by
  obtain ⟨xs, hxs⟩ := h.list
  have href : nb.refcnt = (s.buf b).refcnt := by rw [hsame]
  refine h.change { pc := rfl, buf := rfl, lock := (update_eq_self b s.lock).symm }
    ⟨xs, hxs.setBuf rfl rfl rfl rfl (fun hc => href.symm.trans hc)⟩ ?_
    (fun c _ => by rw [hp]; rfl) (Or.inl ⟨by rw [hsame]; rfl, hkept⟩) (by rw [hsame]) hdata
    (fun _ _ _ hl => ?_) (fun _ _ _ hc => by rcases hc with hc | hc <;> cases hc)
    (Or.inr ⟨nofun, Or.inl rfl⟩)
  · rw [href, h.count b, at_keep s.pc (Pc.refers b) (by rw [hp]; rfl)]
  · rw [hp] at hl
    cases hl
    exact ⟨rfl, hdone⟩

omit [DecidableEq P] in
/-- A panic changes nothing else. -/
theorem stop (e : BPanic) : CacheInv disksize image { s with panic := some e } := by
  obtain ⟨xs, hxs⟩ := h.list
  exact { h with
    list := ⟨xs, hxs.congr rfl rfl rfl (fun _ hc => hc)⟩
    held := nofun }

/-- `bread` returns a buffer with data, or the machine stops. -/
theorem bread (hp : s.pc p = .locked dev blockno b) :
    CacheInv disksize image (s.bread disksize p b) ∧
      ((s.bread disksize p b).panic = none → s.panic = none →
        ((s.bread disksize p b).buf b).valid = true) := by
  have hlock := (h.locked p dev blockno b hp).1
  -- the buffer stays as it is
  have hback : ∀ t : State P D, CacheInv disksize image t → t.pc p = .locked dev blockno b →
      (t.panic = none → (t.buf b).valid = true) → CacheInv disksize image (t.goto p .idle) := by
    intro t ht hpt hdone
    have := ht.backFromBread hpt rfl id (fun hv => Or.inl ⟨hv, rfl⟩) hdone
    rwa [show t.setBuf b (t.buf b) = t by unfold State.setBuf; rw [update_eq_self]] at this
  unfold State.bread
  split
  · next hv => exact ⟨hback s h hp (fun _ => hv), fun _ _ => hv⟩
  · next hv =>
    have hclean : (s.buf b).dirty = false := by
      by_contra hne
      exact hv (h.dirty b (by simpa using hne))
    unfold State.iderw
    rw [if_neg (by simpa using hlock), if_neg (by simp [hv])]
    by_cases hdev : (s.buf b).dev = 1
    · rw [if_neg (by simpa using hdev)]
      by_cases hrange : disksize ≤ (s.buf b).blockno
      · rw [if_pos hrange]
        exact ⟨hback _ (h.stop _) hp nofun, nofun⟩
      · rw [if_neg hrange, if_neg (by simp [hclean])]
        refine ⟨h.backFromBread hp rfl (fun _ => rfl) (fun _ => Or.inr ⟨hdev,
          Nat.lt_of_not_le hrange, h.disk_of_clean hdev hclean⟩) (fun _ => rfl), fun _ _ => ?_⟩
        rw [buf_goto, buf_setBuf_self]
    · rw [if_pos hdev]
      exact ⟨hback _ (h.stop _) hp nofun, nofun⟩

/-- **One step.** -/
theorem step {l : Label P D} (hst : next disksize s l = some s') : CacheInv disksize image s' := by
  obtain ⟨hnone, hmove⟩ := move_of_next hst
  cases hmove with
  | bget hp hget =>
    obtain ⟨xs, hxs⟩ := h.list
    rcases bget_cases hxs hget with ⟨b, hdev, hno, rfl⟩ |
      ⟨hmiss, ⟨b, hzero, hclean, _, rfl⟩ | rfl⟩
    · exact h.hit hp hdev hno
    · exact h.recycle hp hmiss hzero hclean
    · exact h.stop _
  | lock hp hfree => exact h.lockBuf hp hfree
  | bread hp => exact (h.bread hp).1
  | modify hp hlock =>
    exact h.modify hlock hp (h.held hnone _ _ hlock (fun _ _ => by rw [hp]; simp)) _
  | bwrite hp hlock =>
    exact h.bwrite hlock hp (h.held hnone _ _ hlock (fun _ _ => by rw [hp]; simp))
  | log_write hp hlock =>
    exact h.log_write hlock hp (h.held hnone _ _ hlock (fun _ _ => by rw [hp]; simp))
  | brelse hp hlock hclean => exact h.unlockBuf hp hlock hclean
  | unref hp => exact h.unref hp

end

omit [DecidableEq P] in
theorem boot (disksize : Nat) (image : Nat → D) (zero : D) :
    CacheInv disksize image (boot P image zero) := by
  refine ⟨⟨(List.finRange NBUF).reverse, circular_binit, fun b => ?_, ?_, fun _ => Nat.le_refl _⟩,
    fun b => ?_, fun a b hne => absurd rfl hne, fun p dev n b hp => ?_, fun p dev n b hp => ?_,
    fun _ p b hp => ?_, fun b hv => ?_, fun b hd => ?_, fun b ht => ?_, fun b hv => ?_,
    fun n _ => rfl⟩
  · exact List.mem_reverse.mpr (List.mem_finRange b)
  · exact List.pairwise_of_forall (fun _ _ _ _ => Or.inr ⟨rfl, rfl⟩)
  · have hempty : At (Bio.boot P image zero).pc (Pc.refers b) = ∅ := by
      rw [Finset.eq_empty_iff_forall_notMem]
      intro p hp
      rw [mem_at] at hp
      cases hp
    rw [hempty]
    rfl
  · rcases hp with hp | hp <;> cases hp
  · cases hp
  · cases hp
  · cases hv
  · cases hd
  · cases ht
  · cases hv

end CacheInv

section results

variable [Fintype P] {disksize : Nat} {image : Nat → D} {s s' : State P D}

theorem cacheInv_reachable (h : Reachable (bcache P disksize image) s) :
    CacheInv disksize image s := by
  induction h with
  | init h0 =>
    obtain ⟨zero, rfl⟩ := h0
    exact CacheInv.boot disksize image zero
  | step l _ hst ih => exact ih.step hst

omit [Fintype P] in
theorem block_iderw (s : State P D) (p : P) (b c : BIdx) :
    ((s.iderw disksize p b).buf c).block = (s.buf c).block := by
  unfold State.iderw
  split
  · rfl
  · split
    · rfl
    · split
      · rfl
      · split
        · rfl
        · split
          · exact setBuf_agree s Buf.block (by rfl) c
          · exact setBuf_agree s Buf.block (by rfl) c

/-- A buffer only gets another block when `bget` recycles it. -/
theorem recycled_of_renamed (h : CacheInv disksize image s) {l : Label P D}
    (hst : next disksize s l = some s') {b : BIdx} (hb : (s'.buf b).block ≠ (s.buf b).block) :
    (s.buf b).refcnt = 0 ∧ (s.buf b).dirty = false ∧
      ∀ c, c ≠ b → (s.buf c).refcnt = 0 → (s.buf c).dirty = false → Later s c b := by
  obtain ⟨_, hmove⟩ := move_of_next hst
  cases hmove with
  | bget hp hget =>
    obtain ⟨xs, hxs⟩ := h.list
    rcases bget_cases hxs hget with ⟨a, hdev, hno, rfl⟩ | ⟨_, ⟨a, hzero, hclean, hlru, rfl⟩ | rfl⟩
    · exact absurd (setBuf_agree s Buf.block (by rfl) b) hb
    · have hba : b = a := by
        by_contra hne
        exact hb (congrArg Buf.block (buf_setBuf_of_ne s a _ hne))
      rw [hba]
      exact ⟨hzero, hclean, hlru⟩
    · exact absurd rfl hb
  | lock hp hfree => exact absurd rfl hb
  | @bread p _ _ a hp =>
    refine absurd ?_ hb
    unfold State.bread
    split
    · rfl
    · exact block_iderw s p a b
  | modify hp hlock => exact absurd (setBuf_agree s Buf.block (by rfl) b) hb
  | @bwrite p a hp hlock =>
    refine absurd ?_ hb
    unfold State.bwrite
    split
    · rfl
    · exact (block_iderw _ p a b).trans (setBuf_agree s Buf.block (by rfl) b)
  | log_write hp hlock => exact absurd (setBuf_agree s Buf.block (by rfl) b) hb
  | brelse hp hlock hclean => exact absurd rfl hb
  | @unref p a hp =>
    obtain ⟨links, heq⟩ := unref_eq s p a
    refine absurd ?_ hb
    rw [heq]
    exact setBuf_agree s Buf.block (by rfl) b

/-- **Buffer cache transparency**: a block has at most one buffer; the list
    is a permutation of all buffers, linked both ways; only a buffer that is
    neither referred to nor dirty is recycled, and of those the one that was
    given back least recently; `bget` always comes to an end; and `bread`
    returns what was last written to the block. -/
theorem buffer_cache_transparent {disksize : Nat} {image : Nat → D} {s : State P D}
    (h : Reachable (bcache P disksize image) s) :
    (∀ a b, (s.buf a).dev ≠ 0 → (s.buf a).dev = (s.buf b).dev →
      (s.buf a).blockno = (s.buf b).blockno → a = b) ∧
    (∃ xs : List BIdx, xs.Nodup ∧ (∀ b, b ∈ xs) ∧
      Chain s.links (none :: xs.map some ++ [none])) ∧
    (∀ l s', next disksize s l = some s' → ∀ b, (s'.buf b).block ≠ (s.buf b).block →
      (s.buf b).refcnt = 0 ∧ (s.buf b).dirty = false ∧
      ∀ c, c ≠ b → (s.buf c).refcnt = 0 → (s.buf c).dirty = false →
        s.released b < s.released c ∨ (s.released c = 0 ∧ s.released b = 0)) ∧
    (∀ p dev blockno, (s.bget p dev blockno).isSome = true) ∧
    (∀ p dev blockno b s', s.pc p = .locked dev blockno b →
      next disksize s (.bread p) = some s' → s'.panic = none →
      s'.lock b = some p ∧ (s'.buf b).block = (dev, blockno) ∧ dev = 1 ∧
      (s'.buf b).data = latest image s'.writes blockno) := by
  have hinv := cacheInv_reachable h
  obtain ⟨xs, hxs⟩ := hinv.list
  refine ⟨hinv.unique, ⟨xs, hxs.linked.nodup, hxs.all, hxs.linked.chain⟩,
    fun l s' hst b hb => recycled_of_renamed hinv hst hb, bget_isSome hxs, ?_⟩
  intro p dev blockno b s' hp hst hnone
  obtain ⟨hstart, hmove⟩ := move_of_next hst
  -- the step is the end of `bread`
  obtain rfl : s' = s.bread disksize p b := by
    cases hmove with
    | bread hq =>
      rw [hp] at hq
      cases hq
      rfl
  obtain ⟨hinv', hvalid⟩ := hinv.bread hp
  obtain ⟨hlock, htouched⟩ := hinv.locked p dev blockno b hp
  have hfound := hinv.found p dev blockno b (Or.inr hp)
  have hfields : (s.bread disksize p b).lock = s.lock ∧
      (s.bread disksize p b).touched = s.touched ∧
      ((s.bread disksize p b).buf b).block = (s.buf b).block := by
    unfold State.bread
    split
    · exact ⟨rfl, rfl, rfl⟩
    · refine ⟨?_, ?_, block_iderw s p b b⟩
      · unfold State.iderw
        split_ifs <;> rfl
      · unfold State.iderw
        split_ifs <;> rfl
  have hv := hvalid hnone hstart
  have hblock : ((s.bread disksize p b).buf b).block = (dev, blockno) := by
    rw [hfields.2.2]
    exact Prod.ext hfound.1 hfound.2
  have hdata := hinv'.data b hv (by rw [hfields.2.1]; exact htouched)
  have hdev := (hinv'.valid b hv).1
  rw [show ((s.bread disksize p b).buf b).blockno = blockno from congrArg Prod.snd hblock] at hdata
  rw [show ((s.bread disksize p b).buf b).dev = dev from congrArg Prod.fst hblock] at hdev
  exact ⟨by rw [hfields.1]; exact hlock, hblock, hdev, hdata⟩

end results

/-! ### A run -/

/-- Process 0 logs a new value for block 5, then process 1 reads the block, up
    to the end of its `bread`. -/
def loggedRun : List (Label (Fin 2) Nat) :=
  [.bget 0 1 5, .lock 0, .bread 0, .modify 0 0 42, .bget 1 1 5, .log_write 0 0, .brelse 0 0,
   .lock 1]

theorem buffer_cache_transparent_loggedRun :
    ∃ s s', Reachable (bcache (Fin 2) 1000 (fun _ => 0)) s ∧ s.pc 1 = .locked 1 5 0 ∧
      next 1000 s (.bread 1) = some s' ∧ (s'.buf 0).data = 42 := by
  have hrun : ((loggedRun.foldlM (next 1000) (boot (Fin 2) (fun _ => 0) 0)).any (fun s =>
      decide (s.pc 1 = .locked 1 5 0) && (next 1000 s (.bread 1)).any (fun s' =>
        decide (s'.panic = none) && decide (latest (fun _ => 0) s'.writes 5 = 42)))) = true := by
    decide +kernel
  obtain ⟨s, hs, hrest⟩ := (Option.any_eq_true _ _).mp hrun
  obtain ⟨hp, hnext⟩ := Bool.and_eq_true_iff.mp hrest
  obtain ⟨s', hs', hend⟩ := (Option.any_eq_true _ _).mp hnext
  obtain ⟨hnone, hlatest⟩ := Bool.and_eq_true_iff.mp hend
  have hreach : Reachable (bcache (Fin 2) 1000 (fun _ => 0)) s :=
    Reachable.foldlM (fun _ _ _ h => h) loggedRun (.init ⟨0, rfl⟩) hs
  have hpc := of_decide_eq_true hp
  have hread := (buffer_cache_transparent hreach).2.2.2.2 1 1 5 0 s' hpc hs'
    (of_decide_eq_true hnone)
  exact ⟨s, s', hreach, hpc, hs', hread.2.2.2.trans (of_decide_eq_true hlatest)⟩

end Xv6.Bio
