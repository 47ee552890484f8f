import BiProject.Constant
import BiProject.Lib.ListMem
import BiProject.Lib.Regions
import Mathlib.Data.Nat.Size
import Mathlib.Data.Option.Basic

/-!
# `bi_malloc`

The functions of `libs/mem/bi_malloc.c` over the words of a node's malloc area, and the runs of any number
of threads that call them. The part of a call that its list lock serialises is one step, but `do_mmap`,
which takes no lock of its own, is a step by itself; the header of a block is written and read outside of
the lock. The lock would rule out more orders of steps than the model does.
-/

namespace BiProject.Malloc
set_option autoImplicit false
open BiProject.Lib.ListMem BiProject.Lib.Regions

/-! ## Constants -/

def memBlockSize : Nat := 16 * 4096
/-- `__SMALL_NR`. -/
def smallNr (i : Nat) : Nat := memBlockSize / i
def minSmallSize : Nat := smallNr 1024
def maxSmallSize : Nat := smallNr 2
def numFreeList : Nat := 32
def numCorePerNode : Nat := 18

/-- `sizeof(__alloc_t)`, and the offsets of its fields. -/
def sizeofAlloc : Nat := 24
def offNext : Nat := 0
def offSize : Nat := 8
def offLid : Nat := 16

/-- `BLOCK_START` and `BLOCK_RET`. -/
def blockStart (b : Nat) : Nat := b - sizeofAlloc
def blockRet (b : Nat) : Nat := b + sizeofAlloc

/-! ## The functions -/

/-- Where the malloc area of the node starts. -/
structure Area where
  start : Nat
  start_pos : 0 < start
  fits : start + memMgrObjSz * memMgrObjNum < u64

def Area.endAddr (A : Area) : Nat := A.start + memMgrObjSz * memMgrObjNum

/-- The words of the area, `bump_addr`, and the heads of `__small_mem`. -/
structure State where
  mem : Mem
  bump : Nat
  fl : Nat → Nat → Nat

def State.setList (st : State) (lid idx head : Nat) : State :=
  { st with fl := fun l i => if l = lid ∧ i = idx then head else st.fl l i }

def getLockId (coreId : Nat) : Nat := coreId % numFreeList

/-- The loop of `get_index`. -/
def indexLoop (size idx : Nat) : Nat := if size = 0 then idx else indexLoop (size >>> 1) (idx + 1)
termination_by size
decreasing_by
  rw [Nat.shiftRight_one]
  omega

def getIndex (size : Nat) : Nat := indexLoop (((size + (u64 - 1)) % u64 &&& (memBlockSize - 1)) >>> 6) 0

/-- `GET_SIZE`. -/
def getSize (size : Nat) : Nat := minSmallSize <<< getIndex size

/-- `do_mmap`, where its compare-and-swap succeeds; it fails where the assertion does. -/
def doMmap (A : Area) (st : State) (size : Nat) : Option (Nat × State) :=
  let newB := (st.bump + size) % u64
  if newB < A.endAddr then some (st.bump, { st with bump := newB }) else none

/-- `__small_free` on a block. -/
def smallFree (st : State) (ptr size lid : Nat) : Option State := do
  let idx := getIndex size
  guard (lid < numFreeList)
  let prev := st.fl lid idx
  return { st with mem := store st.mem (ptr + offNext) prev }.setList lid idx ptr

/-- `__small_malloc` with a block on the list. -/
def smallTake (st : State) (size lid : Nat) : Option (Nat × State) := do
  guard (lid < numFreeList)
  let idx := getIndex size
  let ptr := st.fl lid idx
  guard (ptr ≠ 0)
  let next := st.mem (ptr + offNext)
  let st := st.setList lid idx next
  return (ptr, { st with mem := store st.mem (ptr + offNext) 0 })

/-- The loop that links the pieces of a new block; it returns the last piece. -/
def linkPieces (size : Nat) : Nat → Nat → Mem → Nat × Mem
  | 0, ptr, m => (ptr, m)
  | nr + 1, ptr, m =>
    let m := store m (ptr + offNext) (ptr + size)
    linkPieces size nr (m (ptr + offNext)) m

/-- `__small_malloc` without one, when `do_mmap` has returned `start`. -/
def smallRefill (st : State) (start size lid : Nat) : State :=
  let idx := getIndex size
  let nr := smallNr size - 1
  let (last, m) := linkPieces size nr start st.mem
  let m := store m (last + offNext) 0
  let second := m (start + offNext)
  let m := store m (start + offNext) 0
  let ptr := st.fl lid idx
  let m := store m (last + offNext) ptr
  { st with mem := m }.setList lid idx second

/-- The two stores that end `bi_malloc`. -/
def fillHeader (m : Mem) (ptr need lid : Nat) : Mem := store (store m (ptr + offSize) need) (ptr + offLid) lid

def biMallocInit (A : Area) (m : Mem) : State := { mem := m, bump := A.start, fl := fun _ _ => 0 }

/-! ## Runs -/

/-- An allocation: the block, the size the caller asked for, the size of the block, and the list. -/
structure Alloc where
  block : Nat
  size : Nat
  need : Nat
  lid : Nat
deriving DecidableEq

/-- Where a thread is in a call. `bi_free` has read the size and the list from the header. -/
inductive Pc where
  | idle
  | mapped (size need start : Nat)
  | filling (size need ptr : Nat)
  | freeing (o : Alloc) (size lid : Nat)

/-- The pieces of a new block. -/
def pieces (start size : Nat) : List Region := (List.range (smallNr size)).map fun i => ⟨start + i * size, size⟩

/-- The node's memory, its threads, the live allocations, and the blocks that were ever carved, with the
list they were carved for. -/
structure Sys (T : Type) where
  st : State
  pc : T → Pc
  live : List Alloc
  carved : List (Region × Nat)

section
variable {T : Type} [DecidableEq T]

def Sys.goto (σ : Sys T) (t : T) (pc : Pc) : T → Pc := Function.update σ.pc t pc

/-- An eight-byte word with a byte inside the bytes a caller asked for. -/
def Sys.Writable (σ : Sys T) (x : Nat) : Prop :=
  ∃ o ∈ σ.live, blockRet o.block < x + 8 ∧ x < blockRet o.block + o.size

/-- One step of a thread, or a write of a user. A thread `t` runs on the core `core t`. -/
inductive Step (A : Area) (core : T → Fin numCorePerNode) (σ : Sys T) : Sys T → Prop where
  /-- `bi_malloc` of a small size, with a block on the list. -/
  | take {t : T} {size ptr : Nat} {st' : State} (here : σ.pc t = .idle) (noWrap : size + sizeofAlloc < u64)
      (small : size + sizeofAlloc ≤ maxSmallSize)
      (run : smallTake σ.st (getSize (size + sizeofAlloc)) (getLockId (core t)) = some (ptr, st')) :
      Step A core σ { σ with st := st', pc := σ.goto t (.filling size (getSize (size + sizeofAlloc)) ptr) }
  /-- The same without one: `do_mmap`. -/
  | map {t : T} {size start : Nat} {st' : State} (here : σ.pc t = .idle) (noWrap : size + sizeofAlloc < u64)
      (small : size + sizeofAlloc ≤ maxSmallSize)
      (empty : σ.st.fl (getLockId (core t)) (getIndex (getSize (size + sizeofAlloc))) = 0)
      (noWrap' : σ.st.bump + memBlockSize < u64) (run : doMmap A σ.st memBlockSize = some (start, st')) :
      Step A core σ { σ with st := st', pc := σ.goto t (.mapped size (getSize (size + sizeofAlloc)) start) }
  /-- The new block is carved and hooked into the list. -/
  | refill {t : T} {size need start : Nat} (here : σ.pc t = .mapped size need start) :
      Step A core σ { σ with
        st := smallRefill σ.st start need (getLockId (core t)), pc := σ.goto t (.filling size need start)
        carved := (pieces start need).map (·, getLockId (core t)) ++ σ.carved }
  /-- `bi_malloc` of a large size. -/
  | large {t : T} {size ptr : Nat} {st' : State} (here : σ.pc t = .idle) (noWrap : size + sizeofAlloc < u64)
      (large : maxSmallSize < size + sizeofAlloc) (noWrap' : σ.st.bump + (size + sizeofAlloc) < u64)
      (run : doMmap A σ.st (size + sizeofAlloc) = some (ptr, st')) :
      Step A core σ { σ with st := st', pc := σ.goto t (.filling size (size + sizeofAlloc) ptr) }
  /-- `bi_malloc` returns, past its assertions. -/
  | finish {t : T} {size need ptr : Nat} (here : σ.pc t = .filling size need ptr) (enough : size + sizeofAlloc ≤ need)
      (notNull : ptr ≠ 0) :
      Step A core σ { σ with
        st := { σ.st with mem := fillHeader σ.st.mem ptr need (getLockId (core t)) }
        pc := σ.goto t .idle, live := ⟨ptr, size, need, getLockId (core t)⟩ :: σ.live }
  /-- `bi_free` reads the header; a large block is not kept. -/
  | free {t : T} {o : Alloc} (here : σ.pc t = .idle) (live : o ∈ σ.live)
      (sized : σ.st.mem (blockStart (blockRet o.block) + offSize) ≠ 0) :
      Step A core σ { σ with
        pc := σ.goto t
          (if σ.st.mem (blockStart (blockRet o.block) + offSize) ≤ maxSmallSize then
            .freeing o (σ.st.mem (blockStart (blockRet o.block) + offSize)) (σ.st.mem (blockStart (blockRet o.block) + offLid))
          else .idle)
        live := σ.live.erase o }
  /-- The rest of `bi_free`. -/
  | push {t : T} {o : Alloc} {size lid : Nat} {st' : State} (here : σ.pc t = .freeing o size lid)
      (run : smallFree σ.st (blockStart (blockRet o.block)) size lid = some st') :
      Step A core σ { σ with st := st', pc := σ.goto t .idle }
  | write {m' : Mem} (only : ∀ x, m' x ≠ σ.st.mem x → σ.Writable x) :
      Step A core σ { σ with st := { σ.st with mem := m' } }

/-- Runs from `bi_malloc_init` on; the memory may hold anything. -/
inductive Run (A : Area) (core : T → Fin numCorePerNode) : Sys T → Prop where
  | init (m : Mem) : Run A core ⟨biMallocInit A m, fun _ => .idle, [], []⟩
  | step {σ σ' : Sys T} (before : Run A core σ) (next : Step A core σ σ') : Run A core σ'

end

/-! ## Sizes -/

/-- A request is never of no bytes. -/
theorem request_pos (size : Nat) : 0 < size + sizeofAlloc := Nat.add_pos_right _ (by decide)

/-- The size of the blocks on the list `idx`. -/
def classSize (idx : Nat) : Nat := 64 * 2 ^ idx

/-- The loop counts the digits of the size. -/
theorem indexLoop_eq (size idx : Nat) : indexLoop size idx = idx + size.size := by
  induction size using Nat.strongRecOn generalizing idx with
  | ind size ih =>
    rw [indexLoop]
    by_cases done : size = 0
    · simp [done]
    · rw [if_neg done, ih _ (by rw [Nat.shiftRight_one]; omega), Nat.shiftRight_one]
      have bits : size.size = (size / 2).size + 1 := by
        conv_lhs => rw [← Nat.bit_bodd_div2 size]
        rw [Nat.size_bit (by rwa [Nat.bit_bodd_div2]), Nat.div2_val]
      omega

/-- For the sizes it is called with, `get_index` is the number of binary digits of the size above 64 bytes. -/
theorem getIndex_eq {size : Nat} (pos : 0 < size) (small : size ≤ maxSmallSize) : getIndex size = ((size - 1) / 64).size := by
  simp only [maxSmallSize, smallNr, memBlockSize] at small
  have mask : (size + (u64 - 1)) % u64 &&& (memBlockSize - 1) = size - 1 := by
    rw [show memBlockSize - 1 = 2 ^ 16 - 1 by decide, Nat.and_two_pow_sub_one_eq_mod]
    simp only [u64]
    omega
  rw [getIndex, indexLoop_eq, mask, Nat.shiftRight_eq_div_pow, Nat.zero_add]

/-- A size is rounded up to that of its class. -/
theorem getSize_eq (size : Nat) : getSize size = classSize (getIndex size) := by
  rw [getSize, Nat.shiftLeft_eq]
  rfl

/-- There are ten classes of small sizes. -/
theorem getIndex_lt {size : Nat} (pos : 0 < size) (small : size ≤ maxSmallSize) : getIndex size < 10 := by
  rw [getIndex_eq pos small]
  refine Nat.lt_succ_of_le (Nat.size_le.mpr ?_)
  simp only [maxSmallSize, smallNr, memBlockSize] at small
  omega

/-- A block is as large as the size asked for, -/
theorem le_getSize {size : Nat} (pos : 0 < size) (small : size ≤ maxSmallSize) : size ≤ getSize size := by
  rw [getSize_eq, classSize, getIndex_eq pos small]
  have above := Nat.lt_size_self ((size - 1) / 64)
  omega

/-- no larger than a small block may be, -/
theorem classSize_le {idx : Nat} (bound : idx < 10) : classSize idx ≤ maxSmallSize := by
  have power : 2 ^ idx ≤ 2 ^ 9 := Nat.pow_le_pow_right (by decide) (by omega)
  simp only [classSize, maxSmallSize, smallNr, memBlockSize]
  omega

/-- and its class is found again from its own size. -/
theorem getIndex_classSize {idx : Nat} (bound : idx < 10) : getIndex (classSize idx) = idx := by
  have pos : 0 < 2 ^ idx := Nat.two_pow_pos idx
  have digits : (classSize idx - 1) / 64 = 2 ^ idx - 1 := by
    simp only [classSize]
    omega
  have some : 0 < classSize idx := Nat.mul_pos (by decide) pos
  rw [getIndex_eq some (classSize_le bound), digits]
  refine Nat.le_antisymm (Nat.size_le.mpr (by omega)) ?_
  cases idx with
  | zero => exact Nat.zero_le _
  | succ i =>
    refine Nat.lt_size.mpr ?_
    rw [Nat.pow_succ] at pos ⊢
    omega

/-- The pieces fill the block. -/
theorem smallNr_mul {idx : Nat} (bound : idx < 10) : smallNr (classSize idx) * classSize idx = memBlockSize := by
  refine Nat.div_mul_cancel ?_
  rw [classSize, show memBlockSize = 64 * 2 ^ 10 by decide]
  exact Nat.mul_dvd_mul_left _ (Nat.pow_dvd_pow 2 (by omega))

/-- There are two pieces at least. -/
theorem two_le_smallNr {idx : Nat} (bound : idx < 10) : 2 ≤ smallNr (classSize idx) := by
  have small := classSize_le bound
  refine (Nat.le_div_iff_mul_le ?_).mpr ?_
  · exact Nat.mul_pos (by decide) (Nat.two_pow_pos idx)
  · simp only [maxSmallSize, smallNr, memBlockSize] at small ⊢
    omega

/-- Each core has a list of its own number, or shares it. -/
theorem getLockId_lt (coreId : Nat) : getLockId coreId < numFreeList := Nat.mod_lt _ (by decide)

/-! ## Refilling a list -/

/-- The loop links the pieces one to the next, and stores nothing else. -/
theorem linkPieces_spec {size : Nat} (pos : 0 < size) (nr : Nat) {start : Nat} {m : Mem} :
    ∃ m', linkPieces size nr start m = (start + nr * size, m') ∧
      (∀ j < nr, m' (start + j * size + offNext) = start + (j + 1) * size) ∧
      ∀ x, (∀ j < nr, x ≠ start + j * size + offNext) → m' x = m x := by
  induction nr generalizing start m with
  | zero => exact ⟨m, by simp [linkPieces], fun j bound => absurd bound (Nat.not_lt_zero j), fun x _ => rfl⟩
  | succ nr ih =>
    obtain ⟨m', run, links, out⟩ := @ih (start + size) (store m (start + offNext) (start + size))
    have next : ∀ j, start + size + j * size = start + (j + 1) * size := fun j => by rw [Nat.succ_mul]; omega
    refine ⟨m', ?_, fun j bound => ?_, fun x away => ?_⟩
    · rw [linkPieces]
      simp only [store_same]
      rw [run, next]
    · cases j with
      | zero =>
        rw [out _ fun i _ => by simp only [offNext]; omega]
        simp
      | succ j =>
        rw [← next, ← next]
        exact links j (by omega)
    · rw [out x fun i bound => by rw [next]; exact away (i + 1) (by omega)]
      exact store_other (by simpa using away 0 (by omega))

/-- **The refill**: the pieces but the first are linked in front of what is on the list. -/
theorem smallRefill_spec {st : State} {start idx lid : Nat} (bound : idx < 10) :
    ∃ m', smallRefill st start (classSize idx) lid = { st with mem := m' }.setList lid idx (start + classSize idx) ∧
      (∀ j, 1 ≤ j → j < smallNr (classSize idx) - 1 → m' (start + j * classSize idx + offNext) = start + (j + 1) * classSize idx) ∧
      m' (start + (smallNr (classSize idx) - 1) * classSize idx + offNext) = st.fl lid idx ∧
      ∀ x, (∀ j < smallNr (classSize idx), x ≠ start + j * classSize idx + offNext) → m' x = st.mem x := by
  have pos : 0 < classSize idx := Nat.mul_pos (by decide) (Nat.two_pow_pos idx)
  have two := two_le_smallNr bound
  obtain ⟨nr, count⟩ : ∃ nr, smallNr (classSize idx) = nr + 1 := ⟨_, (Nat.sub_add_cancel (by omega)).symm⟩
  obtain ⟨m, run, links, out⟩ := @linkPieces_spec _ pos nr start st.mem
  -- different pieces have different headers
  have apart : ∀ i j, i ≠ j → start + i * classSize idx + offNext ≠ start + j * classSize idx + offNext := by
    intro i j differ same
    exact differ (Nat.eq_of_mul_eq_mul_right pos (by omega))
  have first : start + offNext ≠ start + nr * classSize idx + offNext := by
    have other := apart 0 nr (by omega)
    rwa [Nat.zero_mul, Nat.add_zero] at other
  refine ⟨store (store (store m (start + nr * classSize idx + offNext) 0) (start + offNext) 0)
    (start + nr * classSize idx + offNext) (st.fl lid idx), ?_, ?_, ?_, ?_⟩
  · have second : m (start + offNext) = start + classSize idx := by simpa using links 0 (by omega)
    simp only [smallRefill, getIndex_classSize bound, count, Nat.add_sub_cancel, run, store_other first, second]
  · intro j low high
    rw [count, Nat.add_sub_cancel] at high
    have notFirst := apart j 0 (by omega)
    rw [Nat.zero_mul, Nat.add_zero] at notFirst
    rw [store_other (apart j nr (by omega)), store_other notFirst, store_other (apart j nr (by omega))]
    exact links j high
  · rw [count, Nat.add_sub_cancel, store_same]
  · intro x away
    rw [count] at away
    have notFirst := away 0 (by omega)
    rw [Nat.zero_mul, Nat.add_zero] at notFirst
    rw [store_other (away nr (by omega)), store_other notFirst, store_other (away nr (by omega))]
    exact out x fun j bound => away j (by omega)

end BiProject.Malloc
