import Xv6.Params
import Xv6.Framework.System

/-! # The Log (`log.c`)

    `commit` and `recover_from_log` as sequences of atomic block writes,
    with a crash possible between any two of them, also inside recovery.

    A block is read and written through the buffer cache. `bread` gives
    the cached copy if there is one and the disk's otherwise; `bwrite`
    writes through; a buffer may be evicted at any time unless `log_write`
    pinned it with `B_DIRTY`. A crash empties the cache and the in-memory
    header; the disk stays.

    The ghost fields follow the transactions: `begun` lists those whose
    `commit` started since the last boot, and `done` counts how many of
    them had the header written (the first `write_head`). `applied` is
    what was installed in earlier boots.
-/

open LTS Bytes Function

namespace Xv6.Log

/-! ### The header block -/

/-- `hb->block[i] = log.lh.block[i]`, from index `i` on. -/
def putBlocks : Block → Nat → List Nat → Block
  | b, _, [] => b
  | b, i, x :: xs => putBlocks (putLE 4 b (4 + 4 * i) (BitVec.ofNat 32 x)) (i + 1) xs

/-- The header block `write_head` writes over the old one: `hb->n` and the
    first `n` entries of `hb->block`. -/
def putHeader (b : Block) (lh : List Nat) : Block :=
  putBlocks (putLE 4 b 0 (BitVec.ofNat 32 lh.length)) 0 lh

/-- `lh->n`. -/
def headerN (b : Block) : Int := (getLE 4 b 0 : Word).toInt

/-- The blocks named by a header block, as `read_head` copies them. -/
def getHeader (b : Block) : List Nat :=
  (List.range (headerN b).toNat).map (fun i => (getLE 4 b (4 + 4 * i) : Word).toNat)

theorem getLE_putBlocks_of_lt : ∀ (lh : List Nat) (b : Block) (i o : Nat),
    o + 4 ≤ 4 + 4 * i → (getLE 4 (putBlocks b i lh) o : Word) = getLE 4 b o := by
  intro lh
  induction lh with
  | nil => intro b i o _; rfl
  | cons x xs ih =>
    intro b i o h
    simp only [putBlocks]
    rw [ih _ _ _ (by omega), getLE_putLE_of_disjoint 4 4 b (4 + 4 * i) _ o (Or.inl h)]

theorem getLE_putBlocks : ∀ (lh : List Nat) (b : Block) (i j : Nat) (h : j < lh.length),
    4 + 4 * (i + lh.length) ≤ BSIZE →
    (getLE 4 (putBlocks b i lh) (4 + 4 * (i + j)) : Word) = BitVec.ofNat 32 lh[j] := by
  intro lh
  induction lh with
  | nil => intro b i j h; simp at h
  | cons x xs ih =>
    intro b i j h hsz
    simp only [List.length_cons] at h hsz
    simp only [putBlocks]
    cases j with
    | zero =>
      rw [getLE_putBlocks_of_lt _ _ _ _ (by omega)]
      exact getLE_putLE_self 4 b (4 + 4 * i) _ (by omega)
    | succ j =>
      have hrec := ih (putLE 4 b (4 + 4 * i) (BitVec.ofNat 32 x)) (i + 1) j (by omega) (by omega)
      have harg : i + 1 + j = i + (j + 1) := by omega
      rw [harg] at hrec
      simpa using hrec

theorem headerN_putHeader (b : Block) (lh : List Nat) (hlen : lh.length ≤ LOGSIZE) :
    headerN (putHeader b lh) = lh.length := by
  have hsize : LOGSIZE = 30 := rfl
  unfold headerN putHeader
  rw [getLE_putBlocks_of_lt _ _ _ _ (by omega),
    getLE_putLE_self 4 b 0 (BitVec.ofNat 32 lh.length) (by simp [BSIZE])]
  have hnat : (BitVec.ofNat 32 lh.length).toNat = lh.length := by
    rw [BitVec.toNat_ofNat]
    exact Nat.mod_eq_of_lt (by omega)
  rw [BitVec.toInt_eq_toNat_of_lt (by omega), hnat]

/-- What `write_head` writes, `read_head` reads back. -/
theorem getHeader_putHeader (b : Block) (lh : List Nat) (hlen : lh.length ≤ LOGSIZE)
    (hlt : ∀ x ∈ lh, x < 2 ^ 32) : getHeader (putHeader b lh) = lh := by
  have hsize : LOGSIZE = 30 := rfl
  have hbsize : BSIZE = 512 := rfl
  unfold getHeader
  rw [headerN_putHeader b lh hlen, Int.toNat_natCast]
  apply List.ext_getElem
  · simp
  · intro j h1 h2
    have hget := getLE_putBlocks lh (putLE 4 b 0 (BitVec.ofNat 32 lh.length)) 0 j h2 (by omega)
    have hx : lh[j] < 2 ^ 32 := hlt _ (List.getElem_mem h2)
    rw [Nat.zero_add] at hget
    simp only [List.getElem_map, List.getElem_range]
    unfold putHeader
    rw [hget, BitVec.toNat_ofNat, Nat.mod_eq_of_lt hx]

theorem getHeader_clear (b : Block) : getHeader (putHeader b []) = [] :=
  getHeader_putHeader b [] (by simp) (by simp)


/-! ### State -/

/-- A buffer of the cache: its data and its `B_DIRTY` flag. -/
structure CacheBuf where
  data  : Block
  dirty : Bool

/-- A transaction: the blocks logged, with the contents they get. -/
abbrev Trans : Type := List (Nat × Block)

/-- Where the machine is: the index in a loop is its `tail`. -/
inductive Pc where
  /-- no commit in progress; system calls may `log_write` -/
  | running
  /-- `commit`: in the loop of `write_log` -/
  | writeLog (tail : Nat)
  /-- `commit`: before the first `write_head` -/
  | writeHead
  /-- `commit`: in the loop of `install_trans` -/
  | install (tail : Nat)
  /-- `commit`: before the second `write_head` -/
  | clearHead
  /-- crashed, not yet booted -/
  | down
  /-- `recover_from_log`: in the loop of `install_trans` -/
  | recover (tail : Nat)
  /-- `recover_from_log`: before its `write_head` -/
  | recoverClear
  deriving DecidableEq

structure State where
  disk    : Nat → Block
  cache   : Nat → Option CacheBuf
  /-- `log.lh`: the blocks logged by the current transaction -/
  lh      : List Nat
  pc      : Pc
  /-- transactions installed before the last boot -/
  applied : List Trans
  /-- transactions whose `commit` began since the last boot -/
  begun   : List Trans
  /-- how many of `begun` had their header written -/
  done    : Nat

/-- `bread(dev, b)->data`. -/
def State.bread (s : State) (b : Nat) : Block :=
  match s.cache b with
  | some c => c.data
  | none   => s.disk b

/-- `bread(dev, b)` leaves the block in the cache. -/
def State.load (s : State) (b : Nat) : State :=
  { s with
    cache := Function.update s.cache b
      (some ((s.cache b).getD { data := s.disk b, dirty := false })) }

/-- `bwrite` of block `b` with contents `data`: one atomic disk write that
    clears `B_DIRTY`. -/
def State.bwrite (s : State) (b : Nat) (data : Block) : State :=
  { s with
    disk  := Function.update s.disk b data
    cache := Function.update s.cache b (some { data := data, dirty := false }) }

def State.write_head (s : State) (start : Nat) : State :=
  s.bwrite start (putHeader (s.bread start) s.lh)

/-- The body of the loop of `write_log`. -/
def State.write_log (s : State) (start tail : Nat) : State :=
  let src := s.lh.getD tail 0
  ((s.load (start + tail + 1)).load src).bwrite (start + tail + 1) (s.bread src)

/-- The body of the loop of `install_trans`. -/
def State.install_trans (s : State) (start tail : Nat) : State :=
  let dst := s.lh.getD tail 0
  ((s.load (start + tail + 1)).load dst).bwrite dst (s.bread (start + tail + 1))

/-- `log_write` of block `b` whose buffer now holds `data`. -/
def State.log_write (s : State) (b : Nat) (data : Block) : State :=
  { s with
    cache := Function.update s.cache b (some { data := data, dirty := true })
    lh    := if b ∈ s.lh then s.lh else s.lh ++ [b] }

/-- The transaction `commit` is about to write. -/
def State.trans (s : State) : Trans := s.lh.map (fun b => (b, s.bread b))

/-! ### The system -/

inductive Label where
  /-- some code reads a block -/
  | bread (b : Nat)
  /-- the cache recycles a buffer -/
  | evict (b : Nat)
  | log_write (b : Nat) (data : Block)
  /-- `commit` starts -/
  | commit
  | write_log
  | write_head
  | install_trans
  | clear_head
  | crash
  /-- boot: `recover_from_log` starts with `read_head` -/
  | read_head
  | recover_install
  /-- the last write of `recover_from_log` -/
  | recover_clear

/-- Block `b` lies outside the log area. -/
def Home (start size b : Nat) : Prop := b < start ∨ start + size ≤ b

/-- The log as a labelled transition system, on a disk that initially holds
    `base` with a clear log. The log area is `[start, start + size)`. -/
def logSystem (start size : Nat) (base : Nat → Block) : System State Label where
  init := fun s =>
    0 < size ∧ getHeader (base start) = [] ∧
    s.disk = base ∧ (∀ b, s.cache b = none) ∧ s.lh = [] ∧ s.pc = .running ∧
    s.applied = [] ∧ s.begun = [] ∧ s.done = 0
  step := fun s l s' =>
    match l with
    | .bread b =>
        s.pc ≠ .down ∧ s' = s.load b
    | .evict b =>
        (∃ c, s.cache b = some c ∧ c.dirty = false) ∧
        s' = { s with cache := Function.update s.cache b none }
    | .log_write b data =>
        s.pc = .running ∧ Home start size b ∧ b < 2 ^ 32 ∧
        -- otherwise panic "too big a transaction"
        s.lh.length < LOGSIZE ∧ s.lh.length + 1 < size ∧
        s' = s.log_write b data
    | .commit =>
        s.pc = .running ∧ s.lh ≠ [] ∧
        s' = { s with pc := .writeLog 0, begun := s.begun ++ [s.trans] }
    | .write_log =>
        ∃ t, s.pc = .writeLog t ∧
        s' = { s.write_log start t with
          pc := if t + 1 < s.lh.length then .writeLog (t + 1) else .writeHead }
    | .write_head =>
        s.pc = .writeHead ∧
        s' = { s.write_head start with pc := .install 0, done := s.done + 1 }
    | .install_trans =>
        ∃ t, s.pc = .install t ∧
        s' = { s.install_trans start t with
          pc := if t + 1 < s.lh.length then .install (t + 1) else .clearHead }
    | .clear_head =>
        s.pc = .clearHead ∧
        s' = { State.write_head { s with lh := [] } start with pc := .running }
    | .crash =>
        s' = { s with cache := fun _ => none, lh := [], pc := .down }
    | .read_head =>
        s.pc = .down ∧
        s' = { s.load start with
          lh := getHeader (s.bread start)
          pc := if getHeader (s.bread start) = [] then .recoverClear else .recover 0 }
    | .recover_install =>
        ∃ t, s.pc = .recover t ∧
        s' = { s.install_trans start t with
          pc := if t + 1 < s.lh.length then .recover (t + 1) else .recoverClear }
    | .recover_clear =>
        s.pc = .recoverClear ∧
        s' = { State.write_head { s with lh := [] } start with
          pc := .running
          applied := s.applied ++ s.begun.take s.done
          begun := []
          done := 0 }

/-! ### The abstract disk -/

/-- Apply one transaction, whole. -/
def applyTrans (d : Nat → Block) (t : Trans) : Nat → Block :=
  t.foldl (fun d w => Function.update d w.1 w.2) d

/-- Apply transactions in order. -/
def applyAll (d : Nat → Block) (ts : List Trans) : Nat → Block :=
  ts.foldl applyTrans d

/-- What the home blocks stand for: the initial disk with every transaction
    applied whose header reached the disk. -/
def State.logical (base : Nat → Block) (s : State) : Nat → Block :=
  applyAll base (s.applied ++ s.begun.take s.done)

theorem applyTrans_map (f : Nat → Block) :
    ∀ (lh : List Nat) (d : Nat → Block) (b : Nat),
      applyTrans d (lh.map (fun x => (x, f x))) b = if b ∈ lh then f b else d b := by
  intro lh
  induction lh with
  | nil => intro d b; simp [applyTrans]
  | cons x xs ih =>
    intro d b
    have hrec := ih (update d x (f x)) b
    simp only [applyTrans, List.map_cons, List.foldl_cons] at hrec ⊢
    rw [hrec]
    by_cases hx : b = x
    · subst hx
      simp
    · simp [hx]

/-- A block no transaction names keeps its contents. -/
theorem applyAll_of_not_mem :
    ∀ (ts : List Trans) (d : Nat → Block),
      (∀ t ∈ ts, ∀ w ∈ t, w.1 ≠ b) → applyAll d ts b = d b := by
  have hone : ∀ (t : Trans) (d : Nat → Block), (∀ w ∈ t, w.1 ≠ b) → applyTrans d t b = d b := by
    intro t
    induction t with
    | nil => intro d _; rfl
    | cons w ws ih =>
      intro d h
      have hw : b ≠ w.1 := Ne.symm (h w List.mem_cons_self)
      have hrec := ih (update d w.1 w.2) (fun v hv => h v (List.mem_cons_of_mem _ hv))
      simp only [applyTrans, List.foldl_cons] at hrec ⊢
      rw [hrec, update_of_ne hw]
  intro ts
  induction ts with
  | nil => intro d _; rfl
  | cons t ts ih =>
    intro d h
    have hrec := ih (applyTrans d t) (fun t' ht' => h t' (List.mem_cons_of_mem _ ht'))
    simp only [applyAll, List.foldl_cons] at hrec ⊢
    rw [hrec, hone t d (h t List.mem_cons_self)]


/-! ### The invariant

    `Recoverable` is what must hold of the disk at every moment, since the
    machine may crash there: a home block is up to date unless the header
    on disk names it, and then the log holds the copy that recovery
    installs. -/

section invariant
variable {start size : Nat} {base : Nat → Block} {b : Nat} {disk A : Nat → Block} {s' : State}
  {l : Label} {tr : List (State × Label)}

/-- A list of logged blocks that fits the log and names home blocks. -/
structure LhOk (start size : Nat) (lh : List Nat) : Prop where
  len  : lh.length ≤ LOGSIZE
  room : lh.length < size
  home : ∀ x ∈ lh, Home start size x
  lt   : ∀ x ∈ lh, x < 2 ^ 32

/-- The disk, with a header naming `hdr`, from which recovery produces `A`. -/
structure Recoverable (start size : Nat) (disk A : Nat → Block) (hdr : List Nat) :
    Prop where
  header : getHeader (disk start) = hdr
  ok     : LhOk start size hdr
  copies : ∀ (i : Nat) (h : i < hdr.length), disk (start + i + 1) = A hdr[i]
  rest   : ∀ b, Home start size b → b ∉ hdr → disk b = A b

/-- Only buffers of `lh` from index `t` on are dirty. -/
def DirtyFrom (s : State) (t : Nat) : Prop :=
  ∀ b c, s.cache b = some c → c.dirty = true → b ∈ s.lh.drop t

/-- The header on disk is clear and the blocks logged are pinned. -/
structure Logging (start size : Nat) (s : State) : Prop where
  clear  : getHeader (s.disk start) = []
  ok     : LhOk start size s.lh
  pinned : ∀ b ∈ s.lh, ∃ c, s.cache b = some c ∧ c.dirty = true
  dirty  : DirtyFrom s 0

/-- `write_log` has written the first `t` blocks of the transaction. -/
structure Writing (start size : Nat) (s : State) (t : Nat) : Prop
    extends Logging start size s where
  begun  : s.begun = s.begun.take s.done ++ [s.trans]
  copies : ∀ (i : Nat) (h : i < s.lh.length), i < t →
    s.disk (start + i + 1) = s.bread s.lh[i]

/-- `install_trans` has installed the first `t` blocks the header names. -/
structure Installing (start : Nat) (base : Nat → Block) (s : State) (t : Nat) : Prop where
  header    : getHeader (s.disk start) = s.lh
  installed : ∀ (i : Nat) (h : i < s.lh.length), i < t →
    s.disk s.lh[i] = s.logical base s.lh[i]
  dirty     : DirtyFrom s t

/-- What holds at each program point. -/
def AtPc (start size : Nat) (base : Nat → Block) (s : State) : Prop :=
  match s.pc with
  | .running      => s.begun.length = s.done ∧ Logging start size s
  | .writeLog t   => t < s.lh.length ∧ Writing start size s t
  | .writeHead    => 0 < s.lh.length ∧ Writing start size s s.lh.length
  | .install t    => s.begun.length = s.done ∧ t < s.lh.length ∧ Installing start base s t
  | .clearHead    => s.begun.length = s.done ∧ Installing start base s s.lh.length
  | .down         => ∀ b, s.cache b = none
  | .recover t    => t < s.lh.length ∧ Installing start base s t
  | .recoverClear => Installing start base s s.lh.length

structure LogInv (start size : Nat) (base : Nat → Block) (s : State) : Prop where
  size_pos  : 0 < size
  recov     : ∃ hdr, Recoverable start size s.disk (s.logical base) hdr
  /-- a clean buffer holds what the disk holds -/
  clean     : ∀ b c, s.cache b = some c → c.dirty = false → c.data = s.disk b
  done_le   : s.done ≤ s.begun.length
  begun_le  : s.begun.length ≤ s.done + 1
  at_pc     : AtPc start size base s

/-- A state with another program point. -/
def State.goto (s : State) (pc : Pc) : State := { s with pc := pc }

theorem Writing.goto {s : State} {t : Nat} (h : Writing start size s t) (pc : Pc) :
    Writing start size (s.goto pc) t :=
  ⟨⟨h.clear, h.ok, h.pinned, h.dirty⟩, h.begun, h.copies⟩

theorem Installing.goto {s : State} {t : Nat} (h : Installing start base s t) (pc : Pc) :
    Installing start base (s.goto pc) t :=
  ⟨h.header, h.installed, h.dirty⟩

/-! ### Buffers -/

theorem bread_eq_disk {s : State}
    (hclean : ∀ b c, s.cache b = some c → c.dirty = false → c.data = s.disk b)
    (hb : ∀ c, s.cache b = some c → c.dirty = false) : s.bread b = s.disk b := by
  unfold State.bread
  cases h : s.cache b with
  | none => rfl
  | some c => exact hclean b c h (hb c h)

/-- Blocks of the log area are never dirty. -/
theorem bread_log {s : State} {t : Nat}
    (hclean : ∀ b c, s.cache b = some c → c.dirty = false → c.data = s.disk b)
    (hdirty : DirtyFrom s t) (hok : LhOk start size s.lh) (hb : ¬ Home start size b) :
    s.bread b = s.disk b := by
  apply bread_eq_disk hclean
  intro c hc
  by_contra hne
  have hmem := hdirty b c hc (by simpa using hne)
  exact hb (hok.home b (List.mem_of_mem_drop hmem))

theorem not_home_start (hsize : 0 < size) : ¬ Home start size start := by
  unfold Home
  omega

theorem not_home_slot {i : Nat} (h : i + 1 < size) : ¬ Home start size (start + i + 1) := by
  unfold Home
  omega

theorem load_cache (s : State) (b x : Nat) (c : CacheBuf)
    (h : (s.load b).cache x = some c) :
    s.cache x = some c ∨ (s.cache x = none ∧ c = { data := s.disk x, dirty := false }) := by
  unfold State.load at h
  by_cases hx : x = b
  · subst hx
    cases hc : s.cache x with
    | none => simp [hc, eq_comm] at h; simp [h]
    | some c' => simp [hc] at h; simp [h]
  · simp [hx] at h
    exact Or.inl h

theorem load_cache_of_some (s : State) (b x : Nat) (c : CacheBuf)
    (h : s.cache x = some c) : (s.load b).cache x = some c := by
  unfold State.load
  by_cases hx : x = b
  · subst hx
    simp [h]
  · simp [hx, h]

@[simp] theorem bread_load (s : State) (b x : Nat) : (s.load b).bread x = s.bread x := by
  unfold State.bread
  cases hc : s.cache x with
  | some c => rw [load_cache_of_some s b x c hc]
  | none =>
    cases hl : (s.load b).cache x with
    | none => rfl
    | some c =>
      rcases load_cache s b x c hl with h | ⟨_, rfl⟩
      · rw [hc] at h
        cases h
      · rfl

theorem clean_load {s : State}
    (h : ∀ b c, s.cache b = some c → c.dirty = false → c.data = s.disk b) (x : Nat) :
    ∀ b c, (s.load x).cache b = some c → c.dirty = false → c.data = s.disk b := by
  intro b c hc hd
  rcases load_cache s x b c hc with hc | ⟨_, rfl⟩
  · exact h b c hc hd
  · rfl

theorem clean_bwrite {s : State}
    (h : ∀ b c, s.cache b = some c → c.dirty = false → c.data = s.disk b)
    (x : Nat) (data : Block) :
    ∀ b c, (s.bwrite x data).cache b = some c → c.dirty = false →
      c.data = (s.bwrite x data).disk b := by
  intro b c hc hd
  unfold State.bwrite at hc ⊢
  by_cases hb : b = x
  · subst hb
    simp [eq_comm] at hc
    simp [hc]
  · simp [hb] at hc
    simp [hb, h b c hc hd]

/-! ### Cache moves

    Loading a block and evicting a clean buffer change neither what `bread`
    returns nor which buffers are dirty. -/

/-- The state with another cache. -/
def State.recache (s : State) (cache : Nat → Option CacheBuf) : State :=
  { s with cache := cache }

/-- `cache` differs from that of `s` in clean buffers only. -/
structure Refetch (s : State) (cache : Nat → Option CacheBuf) : Prop where
  bread : ∀ x, (s.recache cache).bread x = s.bread x
  dirty : ∀ x c, c.dirty = true → (cache x = some c ↔ s.cache x = some c)
  clean : (∀ b c, s.cache b = some c → c.dirty = false → c.data = s.disk b) →
    ∀ b c, cache b = some c → c.dirty = false → c.data = s.disk b

theorem refetch_load (s : State) (b : Nat) : Refetch s (s.load b).cache := by
  refine ⟨bread_load s b, ?_, fun h => clean_load h b⟩
  intro x c hd
  constructor
  · intro hc
    rcases load_cache s b x c hc with hc | ⟨_, rfl⟩
    · exact hc
    · cases hd
  · exact load_cache_of_some s b x c

theorem refetch_evict {s : State} {c : CacheBuf} (hc : s.cache b = some c) (hd : c.dirty = false)
    (hdata : c.data = s.disk b) : Refetch s (update s.cache b none) := by
  refine ⟨?_, ?_, ?_⟩
  · intro x
    by_cases hx : x = b
    · subst hx
      simp [State.bread, State.recache, hc, hdata]
    · simp [State.bread, State.recache, hx]
  · intro x c' hd'
    by_cases hx : x = b
    · subst hx
      have hne : c ≠ c' := by
        intro heq
        rw [heq, hd'] at hd
        cases hd
      simp [hc, hne]
    · simp [hx]
  · intro hclean x c' hc' hd'
    by_cases hx : x = b
    · subst hx
      simp at hc'
    · simp [hx] at hc'
      exact hclean x c' hc' hd'

section refetch
variable {s : State} {cache : Nat → Option CacheBuf} {t : Nat}

variable (h : Refetch s cache)

include h

theorem Refetch.dirtyFrom (hd : DirtyFrom s t) : DirtyFrom (s.recache cache) t := by
  intro b c hc hdirty
  exact hd b c ((h.dirty b c hdirty).mp hc) hdirty

theorem Refetch.logging (hl : Logging start size s) : Logging start size (s.recache cache) := by
  refine ⟨hl.clear, hl.ok, ?_, h.dirtyFrom hl.dirty⟩
  intro b hb
  obtain ⟨c, hc, hd⟩ := hl.pinned b hb
  exact ⟨c, (h.dirty b c hd).mpr hc, hd⟩

theorem Refetch.writing (hw : Writing start size s t) : Writing start size (s.recache cache) t := by
  have htrans : (s.recache cache).trans = s.trans := by
    unfold State.trans
    simp only [h.bread]
    rfl
  refine ⟨h.logging hw.toLogging, ?_, ?_⟩
  · rw [htrans]
    exact hw.begun
  · intro i hi hit
    rw [h.bread]
    exact hw.copies i hi hit

theorem Refetch.installing (hw : Installing start base s t) :
    Installing start base (s.recache cache) t :=
  ⟨hw.header, hw.installed, h.dirtyFrom hw.dirty⟩

theorem Refetch.logInv (hpc : s.pc ≠ .down) (hinv : LogInv start size base s) :
    LogInv start size base (s.recache cache) := by
  refine ⟨hinv.size_pos, hinv.recov, h.clean hinv.clean, hinv.done_le, hinv.begun_le, ?_⟩
  have hat := hinv.at_pc
  have hpc' : (s.recache cache).pc = s.pc := rfl
  unfold AtPc at hat ⊢
  rw [hpc']
  cases hc : s.pc with
  | running => rw [hc] at hat; exact ⟨hat.1, h.logging hat.2⟩
  | writeLog t => rw [hc] at hat; exact ⟨hat.1, h.writing hat.2⟩
  | writeHead => rw [hc] at hat; exact ⟨hat.1, h.writing hat.2⟩
  | install t => rw [hc] at hat; exact ⟨hat.1, hat.2.1, h.installing hat.2.2⟩
  | clearHead => rw [hc] at hat; exact ⟨hat.1, h.installing hat.2⟩
  | down => exact absurd hc hpc
  | recover t => rw [hc] at hat; exact ⟨hat.1, h.installing hat.2⟩
  | recoverClear => rw [hc] at hat; exact h.installing hat

end refetch

/-! ### One lemma for each block write -/

theorem lhOk_nil (hsize : 0 < size) : LhOk start size [] :=
  ⟨by simp, by simpa using hsize, by simp, by simp⟩

theorem logging_log_write {s : State} (data : Block) (h : Logging start size s)
    (hb : Home start size b) (hlt : b < 2 ^ 32) (hlen : s.lh.length < LOGSIZE)
    (hroom : s.lh.length + 1 < size) : Logging start size (s.log_write b data) := by
  have hmem : ∀ x, x ∈ (s.log_write b data).lh → x ∈ s.lh ∨ x = b := by
    intro x hx
    unfold State.log_write at hx
    by_cases hin : b ∈ s.lh
    · simp [hin] at hx
      exact Or.inl hx
    · simpa [hin] using hx
  have hb' : b ∈ (s.log_write b data).lh := by
    unfold State.log_write
    by_cases hin : b ∈ s.lh <;> simp [hin]
  have hsub : ∀ x, x ∈ s.lh → x ∈ (s.log_write b data).lh := by
    intro x hx
    unfold State.log_write
    by_cases hin : b ∈ s.lh <;> simp [hin, hx]
  have hlen' : (s.log_write b data).lh.length ≤ s.lh.length + 1 := by
    unfold State.log_write
    by_cases hin : b ∈ s.lh <;> simp [hin]
  refine ⟨h.clear, ⟨by omega, by omega, ?_, ?_⟩, ?_, ?_⟩
  · intro x hx
    rcases hmem x hx with hx | rfl
    · exact h.ok.home x hx
    · exact hb
  · intro x hx
    rcases hmem x hx with hx | rfl
    · exact h.ok.lt x hx
    · exact hlt
  · intro x hx
    by_cases hxb : x = b
    · subst hxb
      exact ⟨{ data := data, dirty := true }, by simp [State.log_write], rfl⟩
    · have hx' : x ∈ s.lh := (hmem x hx).resolve_right hxb
      obtain ⟨c, hc, hd⟩ := h.pinned x hx'
      exact ⟨c, by simp [State.log_write, hxb, hc], hd⟩
  · intro x c hc hd
    rw [List.drop_zero]
    by_cases hxb : x = b
    · subst hxb
      exact hb'
    · have hc' : s.cache x = some c := by simpa [State.log_write, hxb] using hc
      exact hsub x (by simpa using h.dirty x c hc' hd)

/-- `write_log` copies block `t` of the transaction to its log slot. -/
theorem writing_write_log {s : State} {t : Nat} (ht : t < s.lh.length)
    (h : Writing start size s t) :
    Writing start size (s.bwrite (start + t + 1) (s.bread (s.lh.getD t 0))) (t + 1) := by
  have hslot : ¬ Home start size (start + t + 1) := not_home_slot (by have := h.ok.room; omega)
  have hne : ∀ x ∈ s.lh, x ≠ start + t + 1 := by
    intro x hx heq
    exact hslot (heq ▸ h.ok.home x hx)
  have hbread : ∀ x ∈ s.lh,
      (s.bwrite (start + t + 1) (s.bread (s.lh.getD t 0))).bread x = s.bread x := by
    intro x hx
    simp [State.bread, State.bwrite, hne x hx]
  have htrans : (s.bwrite (start + t + 1) (s.bread (s.lh.getD t 0))).trans = s.trans := by
    unfold State.trans
    apply List.map_congr_left
    intro x hx
    rw [hbread x hx]
  refine ⟨⟨?_, h.ok, ?_, ?_⟩, ?_, ?_⟩
  · have hstart : start ≠ start + t + 1 := by omega
    simp only [State.bwrite, update_of_ne hstart]
    exact h.clear
  · intro b hb
    obtain ⟨c, hc, hd⟩ := h.pinned b hb
    exact ⟨c, by simp [State.bwrite, hne b hb, hc], hd⟩
  · intro b c hc hd
    by_cases hb : b = start + t + 1
    · subst hb
      simp [State.bwrite] at hc
      rw [← hc] at hd
      cases hd
    · exact h.dirty b c (by simpa [State.bwrite, hb] using hc) hd
  · rw [htrans]
    exact h.begun
  · intro i (hi : i < s.lh.length) hit
    show update s.disk (start + t + 1) _ (start + i + 1) = State.bread _ s.lh[i]
    rw [hbread _ (List.getElem_mem hi)]
    by_cases hlast : i = t
    · subst hlast
      simp [List.getD_eq_getElem?_getD, hi]
    · have hslot' : start + i + 1 ≠ start + t + 1 := by omega
      rw [update_of_ne hslot']
      exact h.copies i hi (by omega)

/-- Writing a log slot while the header is clear keeps the disk recoverable. -/
theorem recoverable_write_log {t : Nat} (data : Block) (h : Recoverable start size disk A [])
    (ht : t + 1 < size) : Recoverable start size (update disk (start + t + 1) data) A [] := by
  have hstart : start ≠ start + t + 1 := by omega
  refine ⟨?_, h.ok, ?_, ?_⟩
  · rw [update_of_ne hstart]
    exact h.header
  · intro i hi
    cases hi
  · intro b hb hnot
    have hne : b ≠ start + t + 1 := by
      intro heq
      exact not_home_slot ht (heq ▸ hb)
    rw [update_of_ne hne]
    exact h.rest b hb hnot

/-- With the whole transaction in the log, writing the header makes the new
    contents of its blocks the ones recovery installs: the commit point. -/
theorem recoverable_write_head {lh : List Nat} (f : Nat → Block) (b0 : Block)
    (h : Recoverable start size disk A []) (hsize : 0 < size) (hok : LhOk start size lh)
    (hcopies : ∀ (i : Nat) (hi : i < lh.length), disk (start + i + 1) = f lh[i]) :
    Recoverable start size (update disk start (putHeader b0 lh))
      (applyTrans A (lh.map (fun b => (b, f b)))) lh := by
  refine ⟨?_, hok, ?_, ?_⟩
  · rw [update_self]
    exact getHeader_putHeader b0 lh hok.len hok.lt
  · intro i hi
    have hstart : start + i + 1 ≠ start := by omega
    rw [update_of_ne hstart, hcopies i hi, applyTrans_map,
      if_pos (List.getElem_mem hi)]
  · intro b hb hnot
    have hne : b ≠ start := by
      intro heq
      exact not_home_start hsize (heq ▸ hb)
    rw [update_of_ne hne, applyTrans_map, if_neg hnot]
    exact h.rest b hb List.not_mem_nil

/-- Installing a block the header names keeps the disk recoverable. -/
theorem recoverable_install {hdr : List Nat} (h : Recoverable start size disk A hdr)
    (hsize : 0 < size) (hb : b ∈ hdr) : Recoverable start size (update disk b (A b)) A hdr := by
  have hhome := h.ok.home b hb
  have hstart : start ≠ b := by
    intro heq
    exact not_home_start hsize (heq ▸ hhome)
  refine ⟨?_, h.ok, ?_, ?_⟩
  · rw [update_of_ne hstart]
    exact h.header
  · intro i hi
    have hroom := h.ok.room
    have hne : start + i + 1 ≠ b := by
      intro heq
      exact not_home_slot (by omega) (heq ▸ hhome)
    rw [update_of_ne hne]
    exact h.copies i hi
  · intro x hx hnot
    have hne : x ≠ b := by
      intro heq
      exact hnot (heq ▸ hb)
    rw [update_of_ne hne]
    exact h.rest x hx hnot

/-- Clearing the header when everything it names is installed keeps the
    disk recoverable. -/
theorem recoverable_clear {hdr : List Nat} (b0 : Block) (h : Recoverable start size disk A hdr)
    (hsize : 0 < size) (hall : ∀ b ∈ hdr, disk b = A b) :
    Recoverable start size (update disk start (putHeader b0 [])) A [] := by
  refine ⟨?_, lhOk_nil hsize, ?_, ?_⟩
  · rw [update_self]
    exact getHeader_clear b0
  · intro i hi
    cases hi
  · intro b hb _
    have hne : b ≠ start := by
      intro heq
      exact not_home_start hsize (heq ▸ hb)
    rw [update_of_ne hne]
    by_cases hin : b ∈ hdr
    · exact hall b hin
    · exact h.rest b hb hin

/-! ### The invariant is kept

    Each step of `commit` and of recovery first fetches its two buffers,
    which `Refetch` covers, and then makes one block write. -/

theorem logInv_load {s : State} (h : LogInv start size base s) (hpc : s.pc ≠ .down)
    (b : Nat) : LogInv start size base (s.load b) :=
  (refetch_load s b).logInv hpc h

/-- While the header is clear, so is the list recovery would install. -/
theorem LogInv.recov_nil {s : State} (h : LogInv start size base s)
    (hclear : getHeader (s.disk start) = []) :
    Recoverable start size s.disk (s.logical base) [] := by
  obtain ⟨hdr, hr⟩ := h.recov
  have hnil : hdr = [] := by rw [← hr.header, hclear]
  rwa [hnil] at hr

/-- While `install_trans` runs, recovery would install the same list. -/
theorem LogInv.recov_lh {s : State} {t : Nat} (h : LogInv start size base s)
    (hi : Installing start base s t) :
    Recoverable start size s.disk (s.logical base) s.lh := by
  obtain ⟨hdr, hr⟩ := h.recov
  have heq : hdr = s.lh := by rw [← hr.header, hi.header]
  rwa [heq] at hr

theorem logInv_log_write {s : State} (data : Block) (h : LogInv start size base s)
    (hpc : s.pc = .running) (hb : Home start size b) (hlt : b < 2 ^ 32)
    (hlen : s.lh.length < LOGSIZE) (hroom : s.lh.length + 1 < size) :
    LogInv start size base (s.log_write b data) := by
  have hat := h.at_pc
  unfold AtPc at hat
  rw [hpc] at hat
  obtain ⟨hbegun, hlog⟩ := hat
  refine ⟨h.size_pos, h.recov, ?_, h.done_le, h.begun_le, ?_⟩
  · intro x c hc hd
    by_cases hx : x = b
    · subst hx
      simp [State.log_write] at hc
      rw [← hc] at hd
      cases hd
    · exact h.clean x c (by simpa [State.log_write, hx] using hc) hd
  · unfold AtPc
    rw [show (s.log_write b data).pc = .running from hpc]
    exact ⟨hbegun, logging_log_write data hlog hb hlt hlen hroom⟩

theorem logInv_commit {s : State} (h : LogInv start size base s) (hpc : s.pc = .running)
    (hne : s.lh ≠ []) :
    LogInv start size base
      { s with pc := .writeLog 0, begun := s.begun ++ [s.trans] } := by
  have hat := h.at_pc
  unfold AtPc at hat
  rw [hpc] at hat
  obtain ⟨hbegun, hlog⟩ := hat
  have htake : (s.begun ++ [s.trans]).take s.done = s.begun := by
    rw [← hbegun, List.take_left]
  have hlogical : State.logical base
      { s with pc := .writeLog 0, begun := s.begun ++ [s.trans] } = s.logical base := by
    unfold State.logical
    simp only [htake]
    rw [← hbegun, List.take_length]
  refine ⟨h.size_pos, ?_, h.clean, ?_, ?_, ?_⟩
  · rw [hlogical]
    exact h.recov
  · simp [hbegun]
  · simp [hbegun]
  · refine ⟨List.length_pos_of_ne_nil hne,
      ⟨hlog.clear, hlog.ok, hlog.pinned, hlog.dirty⟩, ?_, ?_⟩
    · simp only [htake]
      rfl
    · intro i _ hi
      exact absurd hi (Nat.not_lt_zero i)

theorem logInv_write_log {s : State} {t : Nat} (h : LogInv start size base s)
    (hpc : s.pc = .writeLog t) :
    LogInv start size base ((s.write_log start t).goto
      (if t + 1 < s.lh.length then .writeLog (t + 1) else .writeHead)) := by
  -- fetch the buffers
  have hdown : s.pc ≠ .down := by simp [hpc]
  have h1 := logInv_load (logInv_load h hdown (start + t + 1)) hdown (s.lh.getD t 0)
  have hstate : s.write_log start t =
      ((s.load (start + t + 1)).load (s.lh.getD t 0)).bwrite (start + t + 1)
        (((s.load (start + t + 1)).load (s.lh.getD t 0)).bread (s.lh.getD t 0)) := by
    simp [State.write_log]
  rw [hstate]
  generalize hs1 : (s.load (start + t + 1)).load (s.lh.getD t 0) = s1 at *
  have hpc1 : s1.pc = .writeLog t := by rw [← hs1]; exact hpc
  have hlh1 : s.lh = s1.lh := by rw [← hs1]; rfl
  rw [hlh1]
  -- write the log slot
  have hat := h1.at_pc
  unfold AtPc at hat
  rw [hpc1] at hat
  obtain ⟨ht, hw⟩ := hat
  have hnext := writing_write_log ht hw
  have hroom := hw.ok.room
  refine ⟨h1.size_pos, ?_, clean_bwrite h1.clean _ _, h1.done_le, h1.begun_le, ?_⟩
  · exact ⟨[], recoverable_write_log _ (h1.recov_nil hw.clear) (by omega)⟩
  · by_cases hlast : t + 1 < s1.lh.length
    · rw [if_pos hlast]
      exact ⟨hlast, hnext.goto _⟩
    · rw [if_neg hlast]
      have heq : t + 1 = s1.lh.length := by omega
      rw [heq] at hnext
      exact ⟨Nat.zero_lt_of_lt ht, hnext.goto _⟩

theorem logInv_write_head {s : State} (h : LogInv start size base s)
    (hpc : s.pc = .writeHead) :
    LogInv start size base
      { s.write_head start with pc := .install 0, done := s.done + 1 } := by
  have hat := h.at_pc
  unfold AtPc at hat
  rw [hpc] at hat
  obtain ⟨hpos, hw⟩ := hat
  have hlen : s.begun.length = s.done + 1 := by
    have hcongr := congrArg List.length hw.begun
    simp only [List.length_append, List.length_take, List.length_singleton] at hcongr
    have hdone := h.done_le
    omega
  -- the transaction is now among those applied
  have hlogical : State.logical base
      { s.write_head start with pc := .install 0, done := s.done + 1 } =
      applyTrans (s.logical base) s.trans := by
    have htake : s.begun.take (s.done + 1) = s.begun.take s.done ++ [s.trans] := by
      rw [← hlen, List.take_length]
      exact hw.begun
    show applyAll base (s.applied ++ s.begun.take (s.done + 1)) = _
    rw [htake, ← List.append_assoc]
    simp [State.logical, applyAll]
  have hcommit := recoverable_write_head s.bread (s.bread start) (h.recov_nil hw.clear)
    h.size_pos hw.ok (fun i hi => hw.copies i hi hi)
  refine ⟨h.size_pos, ?_, clean_bwrite h.clean _ _, ?_, ?_, ?_⟩
  · rw [hlogical]
    exact ⟨s.lh, hcommit⟩
  · show s.done + 1 ≤ s.begun.length
    omega
  · show s.begun.length ≤ s.done + 1 + 1
    omega
  · refine ⟨hlen, hpos, hcommit.header, ?_, ?_⟩
    · intro i _ hi
      exact absurd hi (Nat.not_lt_zero i)
    · intro b c hc hd
      by_cases hb : b = start
      · subst hb
        simp [State.write_head, State.bwrite] at hc
        rw [← hc] at hd
        cases hd
      · exact hw.dirty b c (by simpa [State.write_head, State.bwrite, hb] using hc) hd

/-- The body of `install_trans`, in `commit` and in recovery alike. -/
theorem installing_install_trans {s : State} {t : Nat} (h : LogInv start size base s)
    (hdown : s.pc ≠ .down) (ht : t < s.lh.length) (hi : Installing start base s t) :
    let s' := s.install_trans start t
    (∃ hdr, Recoverable start size s'.disk (s'.logical base) hdr) ∧
    (∀ b c, s'.cache b = some c → c.dirty = false → c.data = s'.disk b) ∧
    Installing start base s' (t + 1) := by
  -- fetch the buffers
  have h1 := logInv_load (logInv_load h hdown (start + t + 1)) hdown (s.lh.getD t 0)
  have hi1 : Installing start base ((s.load (start + t + 1)).load (s.lh.getD t 0)) t :=
    (refetch_load (s.load (start + t + 1)) _).installing
      ((refetch_load s (start + t + 1)).installing hi)
  have hstate : s.install_trans start t =
      ((s.load (start + t + 1)).load (s.lh.getD t 0)).bwrite (s.lh.getD t 0)
        (((s.load (start + t + 1)).load (s.lh.getD t 0)).bread (start + t + 1)) := by
    simp [State.install_trans]
  rw [hstate]
  generalize hs1 : (s.load (start + t + 1)).load (s.lh.getD t 0) = s1 at *
  have hlh1 : s.lh = s1.lh := by rw [← hs1]; rfl
  rw [hlh1] at ht ⊢
  have hr := h1.recov_lh hi1
  have hroom := hr.ok.room
  have hget : s1.lh.getD t 0 = s1.lh[t] := by simp [List.getD_eq_getElem?_getD, ht]
  have hmem : s1.lh[t] ∈ s1.lh := List.getElem_mem ht
  -- the log slot holds the new contents of the block
  have hread : s1.bread (start + t + 1) = s1.logical base s1.lh[t] := by
    rw [bread_log h1.clean hi1.dirty hr.ok (not_home_slot (by omega))]
    exact hr.copies t ht
  rw [hget, hread]
  refine ⟨⟨s1.lh, recoverable_install hr h1.size_pos hmem⟩, clean_bwrite h1.clean _ _, ?_, ?_, ?_⟩
  · exact (recoverable_install hr h1.size_pos hmem).header
  · intro i (hlt : i < s1.lh.length) hit
    show update s1.disk s1.lh[t] _ s1.lh[i] = s1.logical base s1.lh[i]
    by_cases hsame : s1.lh[i] = s1.lh[t]
    · rw [hsame, update_self]
    · rw [update_of_ne hsame]
      have hne : i ≠ t := by
        intro heq
        subst heq
        exact hsame rfl
      exact hi1.installed i hlt (by omega)
  · intro b c hc hd
    by_cases hb : b = s1.lh[t]
    · subst hb
      simp [State.bwrite] at hc
      rw [← hc] at hd
      cases hd
    · have hold := hi1.dirty b c (by simpa [State.bwrite, hb] using hc) hd
      rw [List.drop_eq_getElem_cons ht] at hold
      exact (List.mem_cons.mp hold).resolve_left hb

/-- Clearing the header once everything is installed, as `commit` and
    recovery end. -/
theorem logging_clear {s : State} (h : LogInv start size base s)
    (hi : Installing start base s s.lh.length) :
    let s' := State.write_head { s with lh := [] } start
    Recoverable start size s'.disk (s.logical base) [] ∧
    (∀ b c, s'.cache b = some c → c.dirty = false → c.data = s'.disk b) ∧
    Logging start size s' := by
  have hr := h.recov_lh hi
  have hall : ∀ b ∈ s.lh, s.disk b = s.logical base b := by
    intro b hb
    obtain ⟨i, hlt, rfl⟩ := List.getElem_of_mem hb
    exact hi.installed i hlt hlt
  have hclear := recoverable_clear (s.bread start) hr h.size_pos hall
  refine ⟨hclear, clean_bwrite h.clean _ _, hclear.header, lhOk_nil h.size_pos, ?_, ?_⟩
  · intro b hb
    cases hb
  · intro b c hc hd
    by_cases hb : b = start
    · subst hb
      simp [State.write_head, State.bwrite] at hc
      rw [← hc] at hd
      cases hd
    · have hold := hi.dirty b c (by simpa [State.write_head, State.bwrite, hb] using hc) hd
      simp at hold

theorem logInv_init {s : State} (h : (logSystem start size base).init s) :
    LogInv start size base s := by
  obtain ⟨hsize, hclear, hdisk, hcache, hlh, hpc, happ, hbegun, hdone⟩ := h
  have hlogical : s.logical base = base := by
    simp [State.logical, happ, hbegun, applyAll]
  have hnone : ∀ b c, s.cache b ≠ some c := by
    intro b c hc
    rw [hcache b] at hc
    cases hc
  refine ⟨hsize, ⟨[], ?_⟩, ?_, by simp [hdone], by simp [hbegun], ?_⟩
  · rw [hlogical, hdisk]
    exact ⟨hclear, lhOk_nil hsize, fun i hi => (by cases hi), fun b _ _ => rfl⟩
  · intro b c hc
    exact absurd hc (hnone b c)
  · unfold AtPc
    rw [hpc]
    refine ⟨by simp [hbegun, hdone], ?_, ?_, ?_, ?_⟩
    · rw [hdisk]
      exact hclear
    · rw [hlh]
      exact lhOk_nil hsize
    · simp [hlh]
    · intro b c hc
      exact absurd hc (hnone b c)

theorem logInv_read_head {s : State} (h : LogInv start size base s) (hpc : s.pc = .down) :
    LogInv start size base
      { s.load start with
        lh := getHeader (s.bread start)
        pc := if getHeader (s.bread start) = [] then .recoverClear else .recover 0 } := by
  have hat := h.at_pc
  unfold AtPc at hat
  rw [hpc] at hat
  have hcold : ∀ b, s.cache b = none := hat
  have hread : s.bread start = s.disk start := by simp [State.bread, hcold start]
  have hnodirty : ∀ b c, (s.load start).cache b = some c → c.dirty = true → False := by
    intro b c hc hd
    rcases load_cache s start b c hc with hc | ⟨_, rfl⟩
    · rw [hcold b] at hc
      cases hc
    · cases hd
  have hinst : ∀ (pc : Pc) (t : Nat), t = 0 → Installing start base
      { s.load start with lh := getHeader (s.bread start), pc := pc } t := by
    intro pc t ht
    refine ⟨?_, ?_, ?_⟩
    · rw [hread]
      rfl
    · intro i _ hi
      omega
    · intro b c hc hd
      exact (hnodirty b c hc hd).elim
  refine ⟨h.size_pos, h.recov, clean_load h.clean start, h.done_le, h.begun_le, ?_⟩
  by_cases hnil : getHeader (s.bread start) = []
  · rw [if_pos hnil]
    exact hinst .recoverClear _ (by simp [hnil])
  · rw [if_neg hnil]
    exact ⟨List.length_pos_of_ne_nil hnil, hinst (.recover 0) 0 rfl⟩

theorem logInv_step {s : State} (h : LogInv start size base s)
    (hstep : (logSystem start size base).step s l s') : LogInv start size base s' := by
  have hat := h.at_pc
  cases l with
  | bread b =>
    obtain ⟨hpc, rfl⟩ := hstep
    exact logInv_load h hpc b
  | evict b =>
    obtain ⟨⟨c, hc, hd⟩, rfl⟩ := hstep
    have hpc : s.pc ≠ .down := by
      intro hdown
      unfold AtPc at hat
      rw [hdown] at hat
      have hnone : s.cache b = none := hat b
      rw [hnone] at hc
      cases hc
    exact (refetch_evict hc hd (h.clean b c hc hd)).logInv hpc h
  | log_write b data =>
    obtain ⟨hpc, hb, hlt, hlen, hroom, rfl⟩ := hstep
    exact logInv_log_write data h hpc hb hlt hlen hroom
  | commit =>
    obtain ⟨hpc, hne, rfl⟩ := hstep
    exact logInv_commit h hpc hne
  | write_log =>
    obtain ⟨t, hpc, rfl⟩ := hstep
    exact logInv_write_log h hpc
  | write_head =>
    obtain ⟨hpc, rfl⟩ := hstep
    exact logInv_write_head h hpc
  | install_trans =>
    obtain ⟨t, hpc, rfl⟩ := hstep
    unfold AtPc at hat
    rw [hpc] at hat
    obtain ⟨hbegun, ht, hi⟩ := hat
    obtain ⟨hr, hclean, hnext⟩ := installing_install_trans h (by simp [hpc]) ht hi
    refine ⟨h.size_pos, hr, hclean, h.done_le, h.begun_le, ?_⟩
    by_cases hlast : t + 1 < s.lh.length
    · rw [if_pos hlast]
      exact ⟨hbegun, hlast, hnext.goto _⟩
    · rw [if_neg hlast]
      have heq : t + 1 = s.lh.length := by omega
      rw [heq] at hnext
      exact ⟨hbegun, hnext.goto _⟩
  | clear_head =>
    obtain ⟨hpc, rfl⟩ := hstep
    unfold AtPc at hat
    rw [hpc] at hat
    obtain ⟨hbegun, hi⟩ := hat
    obtain ⟨hr, hclean, hl⟩ := logging_clear h hi
    refine ⟨h.size_pos, ⟨[], hr⟩, hclean, h.done_le, h.begun_le, hbegun, ?_⟩
    exact ⟨hl.clear, hl.ok, hl.pinned, hl.dirty⟩
  | crash =>
    subst hstep
    exact ⟨h.size_pos, h.recov, fun _ _ hc => (by cases hc), h.done_le, h.begun_le, fun _ => rfl⟩
  | read_head =>
    obtain ⟨hpc, rfl⟩ := hstep
    exact logInv_read_head h hpc
  | recover_install =>
    obtain ⟨t, hpc, rfl⟩ := hstep
    unfold AtPc at hat
    rw [hpc] at hat
    obtain ⟨ht, hi⟩ := hat
    obtain ⟨hr, hclean, hnext⟩ := installing_install_trans h (by simp [hpc]) ht hi
    refine ⟨h.size_pos, hr, hclean, h.done_le, h.begun_le, ?_⟩
    by_cases hlast : t + 1 < s.lh.length
    · rw [if_pos hlast]
      exact ⟨hlast, hnext.goto _⟩
    · rw [if_neg hlast]
      have heq : t + 1 = s.lh.length := by omega
      rw [heq] at hnext
      exact hnext.goto _
  | recover_clear =>
    obtain ⟨hpc, rfl⟩ := hstep
    unfold AtPc at hat
    rw [hpc] at hat
    obtain ⟨hr, hclean, hl⟩ := logging_clear h hat
    refine ⟨h.size_pos, ⟨[], ?_⟩, hclean, Nat.le_refl _, Nat.zero_le _, rfl, ?_⟩
    · simpa [State.logical, State.write_head, State.bwrite] using hr
    · exact ⟨hl.clear, hl.ok, hl.pinned, hl.dirty⟩

theorem logInv_reachable {s : State} (h : Reachable (logSystem start size base) s) :
    LogInv start size base s :=
  h.invariant (fun _ => logInv_init) (fun _ _ _ => logInv_step)

/-! ### Crash atomicity -/

/-- The transactions a run began to commit, in order. -/
def attempted (tr : List (State × Label)) : List Trans :=
  tr.filterMap (fun x => match x.2 with | .commit => some x.1.trans | _ => none)

/-- The transactions of a run whose first `write_head` reached the disk. -/
def committed (tr : List (State × Label)) : List Trans :=
  tr.filterMap (fun x => match x.2 with | .write_head => some x.1.trans | _ => none)

/-- The ghost fields are the history of the run. -/
structure History (tr : List (State × Label)) (s : State) : Prop where
  committed_eq : s.applied ++ s.begun.take s.done = committed tr
  sublist      : (s.applied ++ s.begun).Sublist (attempted tr)
  first_boot   : (∀ x ∈ tr, x.2 ≠ .recover_clear) → s.applied ++ s.begun = attempted tr

theorem History.frame {s : State} (h : History tr s) (happ : s'.applied = s.applied)
    (hbegun : s'.begun = s.begun) (hdone : s'.done = s.done)
    (hcommit : committed (tr ++ [(s, l)]) = committed tr)
    (hattempt : attempted (tr ++ [(s, l)]) = attempted tr) : History (tr ++ [(s, l)]) s' := by
  refine ⟨?_, ?_, ?_⟩
  · rw [happ, hbegun, hdone, hcommit]
    exact h.committed_eq
  · rw [happ, hbegun, hattempt]
    exact h.sublist
  · intro hno
    rw [happ, hbegun, hattempt]
    exact h.first_boot (fun x hx => hno x (List.mem_append_left _ hx))

theorem history_step {s : State} (hinv : LogInv start size base s) (h : History tr s)
    (hstep : (logSystem start size base).step s l s') : History (tr ++ [(s, l)]) s' := by
  have hat := hinv.at_pc
  have hsame : ∀ x ∈ tr, (∀ y ∈ tr ++ [(s, l)], y.2 ≠ .recover_clear) → x.2 ≠ .recover_clear :=
    fun x hx hno => hno x (List.mem_append_left _ hx)
  cases l with
  | bread b => obtain ⟨_, rfl⟩ := hstep; exact h.frame rfl rfl rfl (by simp [committed]) (by simp [attempted])
  | evict b => obtain ⟨_, rfl⟩ := hstep; exact h.frame rfl rfl rfl (by simp [committed]) (by simp [attempted])
  | log_write b data =>
    obtain ⟨_, _, _, _, _, rfl⟩ := hstep
    exact h.frame rfl rfl rfl (by simp [committed]) (by simp [attempted])
  | write_log => obtain ⟨_, _, rfl⟩ := hstep; exact h.frame rfl rfl rfl (by simp [committed]) (by simp [attempted])
  | install_trans => obtain ⟨_, _, rfl⟩ := hstep; exact h.frame rfl rfl rfl (by simp [committed]) (by simp [attempted])
  | clear_head => obtain ⟨_, rfl⟩ := hstep; exact h.frame rfl rfl rfl (by simp [committed]) (by simp [attempted])
  | crash => subst hstep; exact h.frame rfl rfl rfl (by simp [committed]) (by simp [attempted])
  | read_head => obtain ⟨_, rfl⟩ := hstep; exact h.frame rfl rfl rfl (by simp [committed]) (by simp [attempted])
  | recover_install => obtain ⟨_, _, rfl⟩ := hstep; exact h.frame rfl rfl rfl (by simp [committed]) (by simp [attempted])
  | commit =>
    obtain ⟨hpc, _, rfl⟩ := hstep
    unfold AtPc at hat
    rw [hpc] at hat
    obtain ⟨hbegun, _⟩ := hat
    have hnew : attempted (tr ++ [(s, .commit)]) = attempted tr ++ [s.trans] := by
      simp [attempted]
    refine ⟨?_, ?_, ?_⟩
    · show s.applied ++ (s.begun ++ [s.trans]).take s.done = _
      have hold : committed (tr ++ [(s, .commit)]) = committed tr := by simp [committed]
      rw [hold, ← h.committed_eq, ← hbegun, List.take_left, List.take_length]
    · rw [hnew]
      show (s.applied ++ (s.begun ++ [s.trans])).Sublist _
      rw [← List.append_assoc]
      exact h.sublist.append (List.Sublist.refl _)
    · intro hno
      rw [hnew, ← h.first_boot (fun x hx => hsame x hx hno), List.append_assoc]
  | write_head =>
    obtain ⟨hpc, rfl⟩ := hstep
    unfold AtPc at hat
    rw [hpc] at hat
    obtain ⟨_, hw⟩ := hat
    have hdone := hinv.done_le
    have hlen : s.begun.length = s.done + 1 := by
      have hcongr := congrArg List.length hw.begun
      simp only [List.length_append, List.length_take, List.length_singleton] at hcongr
      omega
    have hold : attempted (tr ++ [(s, .write_head)]) = attempted tr := by simp [attempted]
    refine ⟨?_, ?_, ?_⟩
    · have hnew : committed (tr ++ [(s, .write_head)]) = committed tr ++ [s.trans] := by
        simp [committed]
      show s.applied ++ s.begun.take (s.done + 1) = _
      rw [hnew, ← h.committed_eq, ← hlen, List.take_length, List.append_assoc, ← hw.begun]
    · rw [hold]
      exact h.sublist
    · intro hno
      rw [hold]
      exact h.first_boot (fun x hx => hsame x hx hno)
  | recover_clear =>
    obtain ⟨_, rfl⟩ := hstep
    refine ⟨?_, ?_, ?_⟩
    · simp only [List.take_nil, List.append_nil]
      simpa [committed] using h.committed_eq
    · have hold : attempted (tr ++ [(s, .recover_clear)]) = attempted tr := by simp [attempted]
      rw [hold]
      show ((s.applied ++ s.begun.take s.done) ++ []).Sublist _
      rw [List.append_nil]
      exact ((List.Sublist.refl _).append (List.take_sublist _ _)).trans h.sublist
    · intro hno
      exact absurd rfl (hno (s, .recover_clear) (by simp))

theorem history_trace {s₀ s : State} (htr : Trace (logSystem start size base) s₀ tr s)
    (h0 : (logSystem start size base).init s₀) : History tr s := by
  induction htr with
  | nil =>
    obtain ⟨_, _, _, _, _, _, happ, hbegun, _⟩ := h0
    exact ⟨by simp [happ, hbegun, committed], by simp [happ, hbegun, attempted],
      fun _ => by simp [happ, hbegun, attempted]⟩
  | snoc l hpre hstep ih =>
    exact history_step (logInv_reachable (hpre.reachable h0)) ih hstep

end invariant

/-- **Crash atomicity.** Take any run, with any number of crashes between
    any two block writes of `commit` and of earlier recoveries, that ends
    with the last write of `recover_from_log`. Then
    the home blocks hold the initial disk with exactly those transactions
    applied, in order and whole, whose first `write_head` reached the disk;
    the header is clear;
    a home block that none of them names is as it was initially;
    the transactions applied are among those begun, in the same order, and
    a prefix of them when this is the first recovery to complete. -/
theorem log_crash_atomic (start size : Nat) (base : Nat → Block) (s₀ s s' : State)
    (tr : List (State × Label)) (h0 : (logSystem start size base).init s₀)
    (htr : Trace (logSystem start size base) s₀ tr s)
    (hstep : (logSystem start size base).step s .recover_clear s') :
    (∀ b, Home start size b → s'.disk b = applyAll base (committed tr) b) ∧
    headerN (s'.disk start) = 0 ∧
    (∀ b, Home start size b → (∀ t ∈ committed tr, ∀ w ∈ t, w.1 ≠ b) →
      s'.disk b = base b) ∧
    (committed tr).Sublist (attempted tr) ∧
    ((∀ x ∈ tr, x.2 ≠ .recover_clear) → committed tr <+: attempted tr) := by
  have hinv := logInv_reachable (htr.reachable h0)
  have hhist := history_trace htr h0
  obtain ⟨hpc, rfl⟩ := hstep
  have hat := hinv.at_pc
  unfold AtPc at hat
  rw [hpc] at hat
  obtain ⟨hr, _, _⟩ := logging_clear hinv hat
  have hhome : ∀ b, Home start size b →
      (State.write_head { s with lh := [] } start).disk b = applyAll base (committed tr) b := by
    intro b hb
    rw [hr.rest b hb List.not_mem_nil, ← hhist.committed_eq]
    rfl
  have hprefix : s.applied ++ s.begun.take s.done <+: s.applied ++ s.begun := by
    rw [List.prefix_append_right_inj]
    exact List.take_prefix _ _
  refine ⟨hhome, ?_, ?_, ?_, ?_⟩
  · show headerN (update s.disk start (putHeader (s.bread start) []) start) = 0
    rw [update_self]
    exact headerN_putHeader _ [] (by simp)
  · intro b hb hnot
    rw [show _ = _ from hhome b hb]
    exact applyAll_of_not_mem _ _ hnot
  · rw [← hhist.committed_eq]
    exact hprefix.sublist.trans hhist.sublist
  · intro hno
    rw [← hhist.committed_eq, ← hhist.first_boot hno]
    exact hprefix


/-! ### A crash after the commit point

    Block 50 is logged and committed on a zeroed disk, the machine crashes
    before the block is installed, and recovery installs it. -/

namespace Example

def s0 : State where
  disk    := fun _ _ => 0
  cache   := fun _ => none
  lh      := []
  pc      := .running
  applied := []
  begun   := []
  done    := 0

def s1 : State := s0.log_write 50 (fun _ => 7)

def s2 : State := { s1 with pc := .writeLog 0, begun := s1.begun ++ [s1.trans] }

def s3 : State := { s2.write_log 2 0 with pc := .writeHead }

def s4 : State := { s3.write_head 2 with pc := .install 0, done := s3.done + 1 }

def s5 : State := { s4 with cache := fun _ => none, lh := [], pc := .down }

def s6 : State := { s5.load 2 with lh := getHeader (s5.bread 2), pc := .recover 0 }

def s7 : State := { s6.install_trans 2 0 with pc := .recoverClear }

def s8 : State :=
  { State.write_head { s7 with lh := [] } 2 with
    pc := .running
    applied := s7.applied ++ s7.begun.take s7.done
    begun := []
    done := 0 }

def trace : List (State × Label) :=
  [(s0, .log_write 50 (fun _ => 7)), (s1, .commit), (s2, .write_log), (s3, .write_head),
   (s4, .crash), (s5, .read_head), (s6, .recover_install)]

abbrev sys : System State Label := logSystem 2 30 (fun _ _ => 0)

theorem init_s0 : sys.init s0 :=
  ⟨by decide, by decide, rfl, fun _ => rfl, rfl, rfl, rfl, rfl, rfl⟩

theorem header_s5 : getHeader (s5.bread 2) = [50] :=
  getHeader_putHeader (s3.bread 2) [50] (by decide) (by decide)

theorem lh_s6 : s6.lh = [50] := header_s5

theorem step_s0 : sys.step s0 (.log_write 50 (fun _ => 7)) s1 :=
  ⟨rfl, Or.inr (by decide), by decide, by decide, by decide, rfl⟩

theorem step_s1 : sys.step s1 .commit s2 := ⟨rfl, by decide, rfl⟩

theorem step_s2 : sys.step s2 .write_log s3 := ⟨0, rfl, rfl⟩

theorem step_s3 : sys.step s3 .write_head s4 := ⟨rfl, rfl⟩

theorem step_s4 : sys.step s4 .crash s5 := rfl

theorem step_s5 : sys.step s5 .read_head s6 := ⟨rfl, by simp [s6, header_s5]⟩

theorem step_s6 : sys.step s6 .recover_install s7 := ⟨0, rfl, by simp [s7, lh_s6]⟩

theorem trace_s7 : Trace sys s0 trace s7 := by
  have t0 : Trace sys s0 [] s0 := .nil s0
  have t3 := ((t0.snoc _ step_s0).snoc _ step_s1).snoc _ step_s2
  have t5 := (t3.snoc _ step_s3).snoc _ step_s4
  exact (t5.snoc _ step_s5).snoc _ step_s6

theorem log_crash_atomic_s8 :
    committed trace = [s3.trans] ∧ s8.disk 50 = applyAll (fun _ _ => 0) (committed trace) 50 :=
  ⟨rfl, (log_crash_atomic 2 30 (fun _ _ => 0) s0 s7 s8 trace init_s0 trace_s7
    (by exact ⟨rfl, rfl⟩)).1 50 (Or.inr (by decide))⟩

end Example

end Xv6.Log
