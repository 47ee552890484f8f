import BiProject.Malloc.Runs

/-!
# Requests of any size

A whole call of `bi_malloc`, for every `size_t`. Adding the header can wrap the request, and adding the request can
wrap `bump_addr`; the assertions of the call see the sums only. Where neither wraps the block is as large as was
asked for, in any state that calls of this kind lead to.
-/

namespace BiProject.Malloc
set_option autoImplicit false
open BiProject.Lib.ListMem BiProject.Lib.Regions

/-! ## The call -/

/-- `__small_malloc`. -/
def smallMalloc (A : Area) (st : State) (size lid : Nat) : Option (Nat × State) :=
  if lid < numFreeList then
    if st.fl lid (getIndex size) = 0 then do
      let (start, st) ← doMmap A st memBlockSize
      return (start, smallRefill st start size lid)
    else smallTake st size lid
  else none

/-- The block for a request that has its header: its size and its address. -/
def findBlock (A : Area) (st : State) (size lid : Nat) : Option (Nat × Nat × State) :=
  if size ≤ maxSmallSize then do
    let (ptr, st) ← smallMalloc A st (getSize size) lid
    return (getSize size, ptr, st)
  else do
    let (ptr, st) ← doMmap A st size
    return (size, ptr, st)

/-- `bi_malloc` on a core, where no other thread comes in between; it fails where an assertion does. -/
def biMalloc (A : Area) (st : State) (coreId size : Nat) : Option (Nat × State) := do
  let size := (size + sizeofAlloc) % u64
  let (need, ptr, st) ← findBlock A st size (getLockId coreId)
  guard (size ≤ need)
  guard (ptr ≠ 0)
  return (blockRet ptr, { st with mem := fillHeader st.mem ptr need (getLockId coreId) })

/-- What a caller may rely on: the block holds the bytes asked for, they are in the area, and `bump_addr` has not
moved backwards. -/
structure Fits (A : Area) (st : State) (size p : Nat) (st' : State) : Prop where
  block : size + sizeofAlloc ≤ st'.mem (blockStart p + offSize)
  inside : A.start ≤ p ∧ p + size ≤ A.endAddr
  bump : st.bump ≤ st'.bump

/-- How far a request moves `bump_addr`. -/
def mmapSize (st : State) (coreId size : Nat) : Nat :=
  if size + sizeofAlloc ≤ maxSmallSize then
    if st.fl (getLockId coreId) (getIndex (getSize (size + sizeofAlloc))) = 0 then memBlockSize else 0
  else size + sizeofAlloc

/-- Neither sum wraps. -/
structure NoWrap (st : State) (coreId size : Nat) : Prop where
  request : size + sizeofAlloc < u64
  bump : st.bump + mmapSize st coreId size < u64

/-! ## What the parts of a call do -/

section
variable {A : Area} {st st' st₁ : State} {size need ptr lid coreId p : Nat}

theorem smallRefill_bump (st : State) (start size lid : Nat) : (smallRefill st start size lid).bump = st.bump := rfl

theorem smallTake_bump (run : smallTake st size lid = some (ptr, st')) : st'.bump = st.bump ∧ ptr = st.fl lid (getIndex size) := by
  simp only [smallTake, Option.bind_eq_bind, Option.bind_eq_some_iff, Option.guard_eq_some', Option.pure_def, Option.some.injEq,
    Prod.mk.injEq] at run
  obtain ⟨_, _, _, _, rfl, rfl⟩ := run
  exact ⟨rfl, rfl⟩

/-- The block comes from the list of its class, or from behind `bump_addr`. -/
theorem smallMalloc_cases (run : smallMalloc A st size lid = some (ptr, st')) :
    (st.fl lid (getIndex size) ≠ 0 ∧ ptr = st.fl lid (getIndex size) ∧ st'.bump = st.bump) ∨
    (st.fl lid (getIndex size) = 0 ∧ ∃ st₁, doMmap A st memBlockSize = some (ptr, st₁) ∧ st'.bump = st₁.bump) := by
  unfold smallMalloc at run
  split_ifs at run with valid empty
  · simp only [Option.bind_eq_bind, Option.bind_eq_some_iff, Option.pure_def, Option.some.injEq, Prod.mk.injEq, Prod.exists] at run
    obtain ⟨start, st₁, mapped, rfl, rfl⟩ := run
    exact Or.inr ⟨empty, st₁, mapped, smallRefill_bump _ _ _ _⟩
  · obtain ⟨bump, rfl⟩ := smallTake_bump run
    exact Or.inl ⟨empty, rfl, bump⟩

/-- What is left of a call: its block, and the header that it writes. -/
theorem biMalloc_cases (run : biMalloc A st coreId size = some (p, st')) :
    ∃ need ptr st₁, findBlock A st ((size + sizeofAlloc) % u64) (getLockId coreId) = some (need, ptr, st₁) ∧
      p = blockRet ptr ∧ st'.mem (blockStart p + offSize) = need ∧ st'.bump = st₁.bump := by
  simp only [biMalloc, Option.bind_eq_bind, Option.bind_eq_some_iff, Option.guard_eq_some', Option.pure_def, Option.some.injEq,
    Prod.mk.injEq, Prod.exists] at run
  obtain ⟨need, ptr, st₁, found, _, _, _, _, rfl, rfl⟩ := run
  refine ⟨need, ptr, st₁, found, rfl, ?_, rfl⟩
  rw [blockStart_blockRet]
  exact (store_other (by simp [offSize, offLid])).trans (store_same _ _ _)

/-- A move of `bump_addr` that wraps goes backwards. -/
theorem doMmap_wraps (run : doMmap A st size = some (ptr, st')) (here : st.bump < u64) (width : size < u64)
    (wraps : u64 ≤ st.bump + size) : st'.bump < st.bump := by
  simp only [doMmap] at run
  split_ifs at run
  obtain ⟨_, rfl⟩ := Prod.mk.inj (Option.some.inj run)
  show (st.bump + size) % u64 < st.bump
  rw [Nat.mod_eq_sub_mod wraps, Nat.mod_eq_of_lt (by omega)]
  omega

/-! ## A request that wraps -/

/-- There are eleven classes, one more than lists; the last is that of a request which wraps to 0. -/
theorem getIndex_le (size : Nat) : getIndex size ≤ 10 := by
  rw [getIndex, indexLoop_eq, Nat.zero_add, show memBlockSize - 1 = 2 ^ 16 - 1 by decide, Nat.and_two_pow_sub_one_eq_mod,
    Nat.shiftRight_eq_div_pow]
  exact Nat.size_le.mpr (by omega)

/-- A request that wraps when its header is added is small, -/
theorem findBlock_wrapped (wrapped : size < sizeofAlloc) (run : findBlock A st size lid = some (need, ptr, st')) :
    need ≤ memBlockSize := by
  have small : size ≤ maxSmallSize := Nat.le_trans (Nat.le_of_lt wrapped) (by decide)
  rw [findBlock, if_pos small] at run
  simp only [Option.bind_eq_bind, Option.bind_eq_some_iff, Option.pure_def, Option.some.injEq, Prod.mk.injEq, Prod.exists] at run
  obtain ⟨_, _, _, rfl, _⟩ := run
  rw [getSize_eq, classSize, show memBlockSize = 64 * 2 ^ 10 by decide]
  exact Nat.mul_le_mul_left _ (Nat.pow_le_pow_right (by decide) (getIndex_le size))

/-- and gets a block that is too small for it. -/
theorem not_fits_of_request (width : size < u64) (wraps : u64 ≤ size + sizeofAlloc)
    (run : biMalloc A st coreId size = some (p, st')) : ¬ Fits A st size p st' := by
  obtain ⟨need, ptr, st₁, found, _, header, _⟩ := biMalloc_cases run
  have rest : (size + sizeofAlloc) % u64 < sizeofAlloc := by
    rw [Nat.mod_eq_sub_mod wraps, Nat.mod_eq_of_lt] <;> simp only [sizeofAlloc, u64] at * <;> omega
  have least := findBlock_wrapped rest found
  intro fits
  have enough := fits.block
  rw [header] at enough
  simp only [memBlockSize, sizeofAlloc, u64] at *
  omega

/-- A request that wraps `bump_addr` moves it backwards. -/
theorem not_fits_of_bump (here : st.bump < u64) (request : size + sizeofAlloc < u64)
    (wraps : u64 ≤ st.bump + mmapSize st coreId size) (run : biMalloc A st coreId size = some (p, st')) : ¬ Fits A st size p st' := by
  obtain ⟨need, ptr, st₁, found, _, _, bump⟩ := biMalloc_cases run
  rw [Nat.mod_eq_of_lt request] at found
  intro fits
  have forward := fits.bump
  unfold findBlock at found
  unfold mmapSize at wraps
  split_ifs at found wraps with small empty
  · simp only [Option.bind_eq_bind, Option.bind_eq_some_iff, Option.pure_def, Option.some.injEq, Prod.mk.injEq, Prod.exists] at found
    obtain ⟨ptr', st₂, malloc, rfl, rfl, rfl⟩ := found
    rcases smallMalloc_cases malloc with ⟨listed, _⟩ | ⟨_, st₃, mapped, moved⟩
    · exact listed empty
    · have back := doMmap_wraps mapped here (by decide) wraps
      omega
  · omega
  · simp only [Option.bind_eq_bind, Option.bind_eq_some_iff, Option.pure_def, Option.some.injEq, Prod.mk.injEq, Prod.exists] at found
    obtain ⟨ptr', st₂, mapped, rfl, rfl, rfl⟩ := found
    have back := doMmap_wraps mapped here request wraps
    omega

end

/-! ## A request that does not -/

section
variable {T : Type} {A : Area} {core : T → Fin numCorePerNode} {σ : Sys T} {chain : Nat → Nat → List Nat}
variable {st' : State} {size coreId p : Nat}

/-- A block of a free list is one of its class, in the area. -/
theorem Kept.listed (kept : Kept A core σ chain) {lid idx : Nat} (some : σ.st.fl lid idx ≠ 0) :
    A.start ≤ σ.st.fl lid idx ∧ σ.st.fl lid idx + classSize idx ≤ σ.st.bump := by
  have list := kept.chains lid idx
  cases listed : chain lid idx with
  | nil =>
    rw [listed] at list
    exact absurd list some
  | cons a rest =>
    rw [listed] at list
    obtain ⟨rfl, _⟩ := list
    have held : ⟨σ.st.fl lid idx, classSize idx⟩ ∈ σ.holdings chain (.list lid idx) := by simp [Sys.holdings, blocks, listed]
    obtain ⟨low, high, _⟩ := kept.inside _ _ held
    exact ⟨low, high⟩

/-- The block that is found lies in the area, behind or before `bump_addr`. -/
theorem Kept.findBlock_spec (kept : Kept A core σ chain) {need ptr : Nat} (noWrap : NoWrap σ.st coreId size)
    (run : findBlock A σ.st (size + sizeofAlloc) (getLockId coreId) = some (need, ptr, st')) :
    size + sizeofAlloc ≤ need ∧ A.start ≤ ptr ∧ ptr + need ≤ A.endAddr ∧ σ.st.bump ≤ st'.bump := by
  obtain ⟨low, high⟩ := kept.bump
  have moves := noWrap.bump
  unfold findBlock at run
  unfold mmapSize at moves
  split_ifs at run moves with small empty
  · simp only [Option.bind_eq_bind, Option.bind_eq_some_iff, Option.pure_def, Option.some.injEq, Prod.mk.injEq, Prod.exists] at run
    obtain ⟨ptr', st₂, malloc, rfl, rfl, rfl⟩ := run
    have bound := getIndex_lt (request_pos size) small
    refine ⟨le_getSize (request_pos size) small, ?_⟩
    rcases smallMalloc_cases malloc with ⟨listed, _⟩ | ⟨_, st₃, mapped, moved⟩
    · exact absurd empty listed
    · obtain ⟨rfl, rfl, ends⟩ := doMmap_eq moves mapped
      have largest := classSize_le bound
      rw [getSize_eq]
      simp only [maxSmallSize, smallNr, memBlockSize] at *
      omega
  · simp only [Option.bind_eq_bind, Option.bind_eq_some_iff, Option.pure_def, Option.some.injEq, Prod.mk.injEq, Prod.exists] at run
    obtain ⟨ptr', st₂, malloc, rfl, rfl, rfl⟩ := run
    have bound := getIndex_lt (request_pos size) small
    refine ⟨le_getSize (request_pos size) small, ?_⟩
    rcases smallMalloc_cases malloc with ⟨listed, rfl, moved⟩ | ⟨none, _⟩
    · obtain ⟨first, last⟩ := kept.listed listed
      rw [getSize_eq] at *
      rw [getIndex_classSize bound] at *
      omega
    · exact absurd none empty
  · simp only [Option.bind_eq_bind, Option.bind_eq_some_iff, Option.pure_def, Option.some.injEq, Prod.mk.injEq, Prod.exists] at run
    obtain ⟨ptr', st₂, mapped, rfl, rfl, rfl⟩ := run
    obtain ⟨rfl, rfl, ends⟩ := doMmap_eq moves mapped
    simp only
    omega

theorem Kept.fits (kept : Kept A core σ chain) (noWrap : NoWrap σ.st coreId size)
    (run : biMalloc A σ.st coreId size = some (p, st')) : Fits A σ.st size p st' := by
  obtain ⟨need, ptr, st₁, found, rfl, header, bump⟩ := biMalloc_cases run
  rw [Nat.mod_eq_of_lt noWrap.request] at found
  obtain ⟨enough, low, high, forward⟩ := kept.findBlock_spec noWrap found
  refine ⟨by rw [header]; exact enough, ?_, by rw [bump]; exact forward⟩
  simp only [blockRet]
  omega

variable [DecidableEq T]

/-- **A block is as large as was asked for if and only if neither sum wraps**, in every state of every run. -/
theorem bi_malloc_fits_iff (A : Area) (core : T → Fin numCorePerNode) (σ : Sys T) (run : Run A core σ) (coreId : Fin numCorePerNode)
    (size : Nat) (width : size < u64) (p : Nat) (st' : State) (call : biMalloc A σ.st coreId size = some (p, st')) :
    Fits A σ.st size p st' ↔ NoWrap σ.st coreId size := by
  obtain ⟨chain, kept⟩ := run.kept
  have here : σ.st.bump < u64 := Nat.lt_trans kept.bump.2 A.fits
  refine ⟨fun fits => ⟨?_, ?_⟩, fun noWrap => kept.fits noWrap call⟩
  · by_contra wraps
    exact not_fits_of_request width (Nat.le_of_not_lt wraps) call fits
  · by_contra wraps
    have request : size + sizeofAlloc < u64 := by
      by_contra wide
      exact not_fits_of_request width (Nat.le_of_not_lt wide) call fits
    exact not_fits_of_bump here request (Nat.le_of_not_lt wraps) call fits

end

/-- In the beginning a request that is small once its header is added gets a block. -/
theorem biMalloc_first {size : Nat} (pos : 0 < (size + sizeofAlloc) % u64) (small : (size + sizeofAlloc) % u64 ≤ maxSmallSize) :
    ∃ p st', biMalloc smallArea (biMallocInit smallArea fun _ => 0) 0 size = some (p, st') := by
  have mapped := @doMmap_some smallArea (biMallocInit smallArea fun _ => 0) memBlockSize (by decide) (by decide)
  generalize request : (size + sizeofAlloc) % u64 = req at pos small
  have empty : (biMallocInit smallArea fun _ => 0).fl (getLockId 0) (getIndex (getSize req)) = 0 := rfl
  have block : ∃ st₁, smallMalloc smallArea (biMallocInit smallArea fun _ => 0) (getSize req) (getLockId 0) = some (2 ^ 40, st₁) := by
    rw [smallMalloc, if_pos (getLockId_lt 0), if_pos empty, mapped]
    exact ⟨_, rfl⟩
  obtain ⟨st₁, block⟩ := block
  simp [biMalloc, request, findBlock, small, block, le_getSize pos small]

/-- The first request, for all of `size_t`, is answered by a block of 64 bytes. -/
theorem bi_malloc_short_block :
    ∃ p st', biMalloc smallArea (biMallocInit smallArea fun _ => 0) 0 (u64 - 1) = some (p, st') ∧
      ¬ Fits smallArea (biMallocInit smallArea fun _ => 0) (u64 - 1) p st' := by
  obtain ⟨p, st', call⟩ := @biMalloc_first (u64 - 1) (by decide) (by decide)
  exact ⟨p, st', call, not_fits_of_request (by decide) (by decide) call⟩

theorem bi_malloc_fits_first_request :
    ∃ p st', biMalloc smallArea (biMallocInit smallArea fun _ => 0) 0 10 = some (p, st') ∧
      Fits smallArea (biMallocInit smallArea fun _ => 0) 10 p st' := by
  obtain ⟨p, st', call⟩ := @biMalloc_first 10 (by decide) (by decide)
  have run : Run smallArea (fun _ : Unit => ⟨0, by decide⟩) _ := .init fun _ => 0
  refine ⟨p, st', call, (bi_malloc_fits_iff smallArea _ _ run ⟨0, by decide⟩ 10 (by decide) p st' call).mpr ⟨by decide, ?_⟩⟩
  have moves : mmapSize (biMallocInit smallArea fun _ => 0) 0 10 = memBlockSize := by
    have empty : (biMallocInit smallArea fun _ => 0).fl (getLockId 0) (getIndex (getSize (10 + sizeofAlloc))) = 0 := rfl
    rw [mmapSize, if_pos (by decide), if_pos empty]
  show _ + mmapSize (biMallocInit smallArea fun _ => 0) 0 10 < u64
  rw [moves]
  decide

end BiProject.Malloc
