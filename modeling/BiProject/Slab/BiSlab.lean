import BiProject.Slab.MemMgr

/-!
# The slab allocator

The functions of `libs/bi/bi_slab.c` over the words of the node's blocks. A block that is in use starts
with a `struct ps_slab`, and its objects follow it, each behind a `struct ps_mheader`; both keep their
fields in the block itself. The `struct ps_slab_info` records come from `malloc`. A function fails where
an assertion of the source does.
-/

namespace BiProject.Slab
set_option autoImplicit false
open BiProject.Lib.ListMem

/-- `struct ps_slab_info`. -/
structure SlabInfo where
  fl : Nat
  el : Nat
  nodeid : Nat
  objSz : Nat
  nslabs : Nat

/-- The words of the blocks, those of the pool's list, and the slab infos by their address. -/
structure State where
  mem : Mem
  pool : Mem
  infos : Nat → SlabInfo

/-- A record is written. -/
def State.setInfo (st : State) (si : Nat) (info : SlabInfo) : State :=
  { st with infos := Function.update st.infos si info }

theorem State.setInfo_self (st : State) (si : Nat) (info : SlabInfo) : (st.setInfo si info).infos si = info := Function.update_self _ _ _

theorem State.setInfo_of_ne (st : State) {si k : Nat} (info : SlabInfo) (differ : k ≠ si) :
    (st.setInfo si info).infos k = st.infos k := Function.update_of_ne differ _ _

/-- `++` and `--` on `size_t`. -/
def incr (x : Nat) : Nat := (x + 1) % u64
def decr (x : Nat) : Nat := (x + (u64 - 1)) % u64

/-! ## `include/bi_slab.h` -/

/-- Field offsets of `struct ps_slab` and of `struct ps_mheader`. -/
def offMemory : Nat := 0
def offMemsz : Nat := 8
def offMemItem : Nat := 16
def offSi : Nat := 24
def offFreelist : Nat := 64
def offList : Nat := 72
def offNfree : Nat := 88
def offType : Nat := 0
def offSlab : Nat := 8
def offNext : Nat := 16

/-- `PS_RNDUP`. -/
def psRndup (v a : BitVec 64) : BitVec 64 := -(-v &&& -a)

def psSlabObjmemsz (objSz : Nat) : Nat :=
  (psRndup (BitVec.ofNat 64 (objSz + sizeofPsMheader)) (BitVec.ofNat 64 cacheLine)).toNat

/-- `__ps_slab_max_nobjs`. The rounded size of an object can wrap to 0; the functions that divide by it fail then, as the
division of the source does. -/
def psSlabMaxNobjs (objSz allocsz headoff : Nat) : Nat := (allocsz - headoff) / psSlabObjmemsz objSz

def psMheadGet (mem : Nat) : Nat := mem - sizeofPsMheader

def psMheadMem (h : Nat) : Nat := h + sizeofPsMheader

/-- `__ps_mhead_reset`; `tsc` is what `bi_global_rtdsc` returns. -/
def psMheadReset (m : Mem) (h tsc : Nat) : Mem := store (store m (h + offNext) 0) (h + offType) tsc

def psMheadInit (m : Mem) (h s : Nat) : Mem := store (store m (h + offSlab) s) (h + offType) 0

/-! ## `libs/bi/bi_slab.c` -/

def psListSingleton (m : Mem) (s : Nat) : Bool := psListLlEmpty m (s + offList)

def psListNext (m : Mem) (s : Nat) : Nat := m (s + offList) - offList

/-- `__slab_freelist_rem` on a list head: its new value and the memory. -/
def slabFreelistRem (m : Mem) (list s : Nat) : Option (Nat × Mem) := do
  guard (s ≠ 0)
  let list := if list = s then (if psListSingleton m s then 0 else psListNext m s) else list
  return (list, psListLlRem m (s + offList))

def slabFreelistAdd (m : Mem) (list s : Nat) : Option (Nat × Mem) := do
  guard (s ≠ 0)
  guard (psListSingleton m s)
  guard (s ≠ list)
  return (s, if list ≠ 0 then psListLlAdd m (list + offList) (s + offList) else m)

/-- The loop of `__ps_slab_init`, with the rounds still to come; it returns `alloc` and the memory. -/
def psSlabInitLoop (s objmemsz : Nat) : Nat → Nat → Nat → Mem → Nat × Mem
  | 0, _, alloc, m => (alloc, m)
  | k + 1, prev, alloc, m =>
    psSlabInitLoop s objmemsz k alloc (alloc + objmemsz) (store (psMheadInit m alloc s) (prev + offNext) alloc)

def psSlabInit (st : State) (si s allocsz headoff : Nat) : Option State := do
  let objmemsz := psSlabObjmemsz (st.infos si).objSz
  guard (objmemsz ≠ 0) -- the division below
  let nfree := (allocsz - headoff) / objmemsz
  let m := store st.mem (s + offNfree) nfree
  let m := store m (s + offMemsz) allocsz
  let m := store m (s + offSi) si
  let alloc := m (s + offMemory) + headoff
  let m := store m (s + offFreelist) alloc
  let (alloc, m) := psSlabInitLoop s objmemsz nfree alloc alloc m
  guard (alloc ≤ m (s + offMemory) + allocsz)
  let m := psListLlInit m (s + offList)
  let (fl, m) ← slabFreelistAdd m (st.infos si).fl s
  return { st with mem := m }.setInfo si { st.infos si with fl := fl }

def psSlabDefalloc (L : Layout) (st : State) (sz : Nat) : Option (Nat × State) := do
  let (memItem, pool) ← memMgrAlloc L sz st.pool
  let s := pool memItem
  guard (s ≠ 0)
  let m := store st.mem (s + offMemory) s
  let m := store m (s + offMemItem) memItem
  return (s, { st with mem := m, pool := pool })

def psSlabDeffree (L : Layout) (st : State) (s : Nat) : State :=
  { st with pool := memMgrFree L st.pool (st.mem (s + offMemItem)) }

/-- `__ps_slab_mem_free`. -/
def psSlabMemFree (L : Layout) (st : State) (buf allocsz headoff : Nat) : Option State := do
  let h := psMheadGet buf
  let s := st.mem (h + offSlab)
  guard (s ≠ 0)
  let si := st.mem (s + offSi)
  guard (si ≠ 0)
  let info := st.infos si
  guard ((psSlabObjmemsz info.objSz + headoff) % u64 ≤ allocsz)
  guard (info.nodeid = L.nodeId)
  guard (psSlabObjmemsz info.objSz ≠ 0) -- the division of `__ps_slab_max_nobjs`
  let maxNobjs := psSlabMaxNobjs info.objSz allocsz headoff % 2 ^ 32
  let next := st.mem (s + offFreelist)
  let m := store st.mem (s + offFreelist) h
  let m := store m (h + offNext) next
  let m := store m (s + offNfree) (incr (m (s + offNfree)))
  if m (s + offNfree) = maxNobjs then
    let (fl, m) ← slabFreelistRem m info.fl s
    return psSlabDeffree L ({ st with mem := m }.setInfo si { info with fl := fl, nslabs := decr info.nslabs }) s
  else if m (s + offNfree) = 1 then
    let (el, m) ← slabFreelistRem m info.el s
    guard (psListSingleton m s)
    guard (m (s + offMemory) ≠ 0 ∧ m (s + offFreelist) ≠ 0)
    let (fl, m) ← slabFreelistAdd m info.fl s
    return { st with mem := m }.setInfo si { info with fl := fl, el := el }
  else return { st with mem := m }

/-- The slab that `__ps_slab_mem_alloc` takes an object from: the first one of the freelist, else a new
one. -/
def psSlabPick (L : Layout) (st : State) (si allocsz headoff : Nat) : Option (Nat × State) := do
  if (st.infos si).fl = 0 then
    let (s, st) ← psSlabDefalloc L st allocsz
    let st ← psSlabInit st si s allocsz headoff
    let st := st.setInfo si { st.infos si with nslabs := incr (st.infos si).nslabs }
    guard (st.mem (s + offMemory) ≠ 0 ∧ st.mem (s + offFreelist) ≠ 0)
    return (s, st)
  else return ((st.infos si).fl, st)

/-- The rest of `__ps_slab_mem_alloc`: takes an object from `s`. -/
def psSlabTake (st : State) (si s tsc : Nat) : Option (Nat × State) := do
  guard (s ≠ 0 ∧ st.mem (s + offFreelist) ≠ 0)
  let h := st.mem (s + offFreelist)
  let m := store st.mem (s + offFreelist) (st.mem (h + offNext))
  let m := store m (s + offNfree) (decr (m (s + offNfree)))
  let m := psMheadReset m h tsc
  if m (s + offNfree) = 0 then
    let info := st.infos si
    let (fl, m) ← slabFreelistRem m info.fl s
    guard (psListSingleton m s)
    let (el, m) ← slabFreelistAdd m info.el s
    return (psMheadMem h, { st with mem := m }.setInfo si { info with fl := fl, el := el })
  else return (psMheadMem h, { st with mem := m })

/-- `__ps_slab_mem_alloc`; `tsc` is the time its call of `__ps_mhead_reset` reads. -/
def psSlabMemAlloc (L : Layout) (st : State) (si allocsz headoff tsc : Nat) : Option (Nat × State) := do
  guard (((st.infos si).objSz + headoff) % u64 ≤ allocsz)
  let (s, st) ← psSlabPick L st si allocsz headoff
  psSlabTake st si s tsc

/-- `bi_slab_create`, with the record at `si` that its `malloc` returns. -/
def biSlabCreate (L : Layout) (st : State) (si objSz : Nat) : Option State := do
  guard (psSlabObjmemsz objSz < memMgrObjSz)
  return st.setInfo si { fl := 0, el := 0, nodeid := L.nodeId, objSz := objSz, nslabs := 0 }

def biSlabAlloc (L : Layout) (st : State) (si tsc : Nat) : Option (Nat × State) := do
  guard ((st.infos si).nodeid = L.nodeId)
  psSlabMemAlloc L st si memMgrObjSz sizeofPsSlab tsc

def biSlabFree (L : Layout) (st : State) (buf : Nat) : Option State := do
  guard (buf ≠ 0)
  psSlabMemFree L st buf memMgrObjSz sizeofPsSlab

/-- `bi_slab_nobjs` for an object size. -/
def biSlabNobjs (objSz : Nat) : Nat := psSlabMaxNobjs objSz memMgrObjSz sizeofPsSlab

/-! ## Sizes -/

/-- Rounding up, in numbers. -/
theorem psRndup_toNat (v : Nat) :
    (psRndup (BitVec.ofNat 64 v) (BitVec.ofNat 64 cacheLine)).toNat = (v % u64 + 63) / 64 * 64 % u64 := by
  have mask : ∀ x : BitVec 64, x &&& -(BitVec.ofNat 64 cacheLine) = (x >>> 6) <<< 6 := by
    intro x
    have ones : -(BitVec.ofNat 64 cacheLine) = BitVec.allOnes 64 <<< 6 := by decide
    rw [ones]
    ext i bound
    simp only [BitVec.getElem_and, BitVec.getElem_shiftLeft, BitVec.getElem_allOnes, BitVec.getElem_ushiftRight]
    by_cases low : i < 6
    · simp [low]
    · simp only [low, decide_false, Bool.not_false, Bool.true_and, Bool.and_true]
      rw [← BitVec.getLsbD_eq_getElem bound, Nat.add_sub_cancel' (Nat.le_of_not_lt low)]
  rw [psRndup, mask]
  simp only [BitVec.toNat_neg, BitVec.toNat_shiftLeft, BitVec.toNat_ushiftRight, BitVec.toNat_ofNat, Nat.shiftLeft_eq,
    Nat.shiftRight_eq_div_pow, u64]
  omega

/-- What an object takes with its header. -/
theorem psSlabObjmemsz_eq (objSz : Nat) :
    psSlabObjmemsz objSz = ((objSz + sizeofPsMheader) % u64 + 63) / 64 * 64 % u64 := psRndup_toNat _

/-- A slab holds at least `n` objects of this size. The object itself has to be smaller than a block: in
the arithmetic of `size_t` a size near its end wraps to a small `__ps_slab_objmemsz`. -/
structure HoldsAtLeast (n objSz : Nat) : Prop where
  fits : objSz ≤ memMgrObjSz
  many : n ≤ biSlabNobjs objSz

/-- What the layout of a slab rests on. -/
structure Geometry (objSz : Nat) : Prop where
  object : objSz + sizeofPsMheader ≤ psSlabObjmemsz objSz
  line : 64 ≤ psSlabObjmemsz objSz
  inside : sizeofPsSlab + biSlabNobjs objSz * psSlabObjmemsz objSz ≤ memMgrObjSz
  few : biSlabNobjs objSz < 2 ^ 20

/-- Sizes that fit have it. -/
theorem HoldsAtLeast.geometry {n objSz : Nat} (holds : HoldsAtLeast n objSz) : Geometry objSz := by
  have fits := holds.fits
  simp only [memMgrObjSz] at fits
  have size : psSlabObjmemsz objSz = (objSz + 24 + 63) / 64 * 64 := by
    rw [psSlabObjmemsz_eq]
    simp only [sizeofPsMheader, u64]
    omega
  have line : 64 ≤ psSlabObjmemsz objSz := by omega
  refine ⟨?_, line, ?_, ?_⟩
  · simp only [sizeofPsMheader]
    omega
  · have whole : biSlabNobjs objSz * psSlabObjmemsz objSz ≤ memMgrObjSz - sizeofPsSlab := Nat.div_mul_le_self _ _
    simp only [memMgrObjSz, sizeofPsSlab] at whole ⊢
    omega
  · have few : biSlabNobjs objSz ≤ (memMgrObjSz - sizeofPsSlab) / 64 := Nat.div_le_div_left line (by decide)
    simp only [memMgrObjSz, sizeofPsSlab] at few
    omega

end BiProject.Slab
