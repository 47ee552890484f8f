import BiProject.Constant
import BiProject.Lib.ListMem
import Mathlib.Data.List.FinRange
import Mathlib.Data.Option.Basic

/-!
# The block pool

`libs/mem/mem_mgr.c` keeps the 1 MB blocks of a node on one list of `struct Free_mem_item`, linked with
the rings of `include/ps_list.h`: `mem_mgr_alloc` takes the item behind the head, `mem_mgr_free` puts
one in before it. The items and the head are a word memory of their own.
-/

namespace BiProject.Slab
set_option autoImplicit false
open BiProject.Lib.ListMem

/-! ## `include/ps_list.h` -/

def psListLlInit (m : Mem) (l : Nat) : Mem := selfLink m l

def psListLlEmpty (m : Mem) (l : Nat) : Bool := m l == l

def psListLlAdd (m : Mem) (l n : Nat) : Mem := linkAfter m l n

def psListLlRem (m : Mem) (l : Nat) : Mem := unlink m l

/-! ## `libs/mem/mem_mgr.c` -/

/-- `NODE_ID()` of the node, the addresses of its blocks and of its `struct Free_mem_list`, and that of
`free_mem_head`. -/
structure Layout where
  nodeId : Nat
  start : Nat
  items : Nat
  head : Nat
  start_pos : 0 < start
  items_pos : 0 < items
  apart : head + 16 ≤ items ∨ items + memMgrObjNum * sizeofFreeMemItem ≤ head

/-- The blocks of a node. -/
abbrev Block := Fin memMgrObjNum

/-- `&lh->mems[i]`; the list links are behind the field `addr`. -/
def Layout.item (L : Layout) (i : Nat) : Nat := L.items + i * sizeofFreeMemItem

/-- The address of a block. -/
def Layout.block (L : Layout) (i : Nat) : Nat := L.start + i * memMgrObjSz

/-- The rounds of the loop of `mem_mgr_init` from `i` on. -/
def memMgrInitLoop (L : Layout) : Nat → Nat → Nat → Mem → Mem
  | 0, _, _, m => m
  | k + 1, i, addr, m =>
    let m := store m (L.item i) addr
    let m := psListLlInit m (L.item i + 8)
    let m := psListLlAdd m (m (L.head + 8)) (L.item i + 8)
    memMgrInitLoop L k (i + 1) (addr + memMgrObjSz) m

def memMgrInit (L : Layout) (m : Mem) : Mem :=
  memMgrInitLoop L memMgrObjNum 0 L.start (psListLlInit m L.head)

/-- Fails where an assertion does: another size, or an empty pool. -/
def memMgrAlloc (L : Layout) (sz : Nat) (m : Mem) : Option (Nat × Mem) :=
  if sz = memMgrObjSz ∧ !psListLlEmpty m L.head ∧ m L.head - 8 ≠ 0 then
    some (m L.head - 8, psListLlRem m (m L.head - 8 + 8))
  else none

def memMgrFree (L : Layout) (m : Mem) (buf : Nat) : Mem := psListLlAdd m (m (L.head + 8)) (buf + 8)

/-! ## The pool as a list of blocks -/

/-- The ring nodes of the pool: its head, and the items of the blocks. -/
def Layout.poolNodes (L : Layout) : Nodes (Option Block) where
  addr := fun i => i.elim L.head fun i => L.item i + 8
  inj := by
    have far := L.apart
    rintro (_ | i) (_ | j) same
    · rfl
    · have bound := j.isLt
      simp only [Option.elim, Layout.item, sizeofFreeMemItem] at same far
      omega
    · have bound := i.isLt
      simp only [Option.elim, Layout.item, sizeofFreeMemItem] at same far
      omega
    · simp only [Option.elim, Layout.item, sizeofFreeMemItem] at same
      exact congrArg some (Fin.ext (by omega))
  apart := by
    have far := L.apart
    rintro (_ | i) (_ | j) same
    · simp only [Option.elim] at same
      omega
    · have bound := j.isLt
      simp only [Option.elim, Layout.item, sizeofFreeMemItem] at same far
      omega
    · have bound := i.isLt
      simp only [Option.elim, Layout.item, sizeofFreeMemItem] at same far
      omega
    · simp only [Option.elim, Layout.item, sizeofFreeMemItem] at same
      omega

/-- The pool holds the blocks `free`, in this order. -/
structure Pool (L : Layout) (m : Mem) (free : List Block) : Prop where
  ring : Ring L.poolNodes m (none :: free.map some)
  addr : ∀ i : Block, m (L.item i) = L.block i

section
variable {L : Layout} {m : Mem} {free : List Block} {b : Block}

/-- The field `addr` of an item is no link. -/
theorem Layout.item_ne_links (L : Layout) (i : Block) (x : Option Block) :
    L.item i ≠ L.poolNodes.addr x ∧ L.item i ≠ L.poolNodes.addr x + 8 := by
  have far := L.apart
  have bound := i.isLt
  cases x with
  | none =>
    simp only [Layout.poolNodes, Option.elim, Layout.item, sizeofFreeMemItem] at far ⊢
    omega
  | some j =>
    simp only [Layout.poolNodes, Option.elim, Layout.item, sizeofFreeMemItem]
    omega

theorem Pool.nodup (pool : Pool L m free) : free.Nodup :=
  (List.nodup_map_iff (Option.some_injective _)).mp (List.nodup_cons.mp pool.ring.nodup).2

theorem Pool.empty_iff (pool : Pool L m free) : psListLlEmpty m L.head = true ↔ free = [] := by
  simp only [psListLlEmpty, beq_iff_eq]
  exact pool.ring.singleton_iff.trans List.map_eq_nil_iff

/-- **`mem_mgr_alloc`** hands out the first block. -/
theorem Pool.alloc (pool : Pool L m (b :: free)) :
    ∃ m', memMgrAlloc L memMgrObjSz m = some (L.item b, m') ∧ Pool L m' free := by
  have first : m L.head = L.item b + 8 := pool.ring.next
  have notEmpty : psListLlEmpty m L.head = false := by
    rw [← Bool.not_eq_true, pool.empty_iff]
    exact List.cons_ne_nil b free
  have positive : L.item b ≠ 0 := by
    have pos := L.items_pos
    simp only [Layout.item]
    omega
  obtain ⟨ring, _, same⟩ := Ring.unlink_mid [none] pool.ring
  refine ⟨_, ?_, ring, fun i => ?_⟩
  · rw [memMgrAlloc, if_pos ⟨rfl, by simp [notEmpty], by rw [first, Nat.add_sub_cancel]; exact positive⟩, first,
      Nat.add_sub_cancel]
    rfl
  · rw [same _ fun a _ => L.item_ne_links i a]
    exact pool.addr i

/-- What `ps_list_head_append_d` does to the ring and to the addresses. -/
theorem ring_append (ring : Ring L.poolNodes m (none :: free.map some)) (new : b ∉ free) :
    Ring L.poolNodes (memMgrFree L m (L.item b)) (none :: (free ++ [b]).map some) ∧
      ∀ i : Block, memMgrFree L m (L.item b) (L.item i) = m (L.item i) := by
  obtain ⟨front, last, split⟩ : ∃ front last, none :: free.map some = front ++ [last] :=
    ⟨_, _, (List.dropLast_append_getLast (List.cons_ne_nil _ _)).symm⟩
  have prev : m (L.head + 8) = L.poolNodes.addr last := by
    rw [show m (L.head + 8) = _ from ring.prev]
    simp [split]
  have turned : Ring L.poolNodes m (last :: front) := by
    rw [split] at ring
    exact Ring.rotate_iff.mp ring
  have absent : some b ∉ last :: front := by
    have old : some b ∉ none :: free.map some := by simpa using new
    rw [split] at old
    simpa [or_comm] using old
  have appended : memMgrFree L m (L.item b) = linkAfter m (L.poolNodes.addr last) (L.poolNodes.addr (some b)) := by
    rw [memMgrFree, psListLlAdd, prev]
    rfl
  rw [appended]
  constructor
  · rw [List.map_append, List.map_singleton, ← List.cons_append, split, List.append_assoc]
    exact Ring.rotate_iff.mpr (turned.linkAfter absent)
  · exact fun i => linkAfter_other turned absent fun a _ => L.item_ne_links i a

/-- **`mem_mgr_free`** puts a block in as the last one. -/
theorem Pool.freed (pool : Pool L m free) (new : b ∉ free) : Pool L (memMgrFree L m (L.item b)) (free ++ [b]) := by
  obtain ⟨ring, same⟩ := ring_append pool.ring new
  exact ⟨ring, fun i => (same i).trans (pool.addr i)⟩

end

/-! ## `mem_mgr_init` -/

/-- The pool after the first `n` rounds. -/
structure PoolUpTo (L : Layout) (m : Mem) (n : Nat) (free : List Block) : Prop where
  ring : Ring L.poolNodes m (none :: free.map some)
  blocks : free.map Fin.val = List.range n
  addr : ∀ i : Block, i.val < n → m (L.item i) = L.block i

theorem memMgrInitLoop_pool {L : Layout} (k : Nat) {m : Mem} {n : Nat} (free : List Block) (all : n + k = memMgrObjNum)
    (upTo : PoolUpTo L m n free) : Pool L (memMgrInitLoop L k n (L.block n) m) (List.finRange memMgrObjNum) := by
  induction k generalizing n m free with
  | zero =>
    obtain rfl : n = memMgrObjNum := all
    have blocks : free = List.finRange memMgrObjNum := by
      refine List.map_injective_iff.mpr Fin.val_injective ?_
      rw [upTo.blocks]
      exact (List.map_coe_finRange_eq_range (n := memMgrObjNum)).symm
    rw [← blocks]
    exact ⟨upTo.ring, fun i => upTo.addr i i.isLt⟩
  | succ k ih =>
    obtain ⟨b, rfl⟩ : ∃ b : Block, b.val = n := ⟨⟨n, by omega⟩, rfl⟩
    have new : b ∉ free := by
      intro member
      have earlier : b.val ∈ List.range b := by
        rw [← upTo.blocks]
        exact List.mem_map_of_mem member
      exact absurd (List.mem_range.mp earlier) (Nat.lt_irrefl _)
    -- the item of the round is on no list yet
    have away : ∀ a ∈ none :: free.map some, a ≠ some b := by
      rintro a member rfl
      simp [new] at member
    have ring : Ring L.poolNodes (psListLlInit (store m (L.item b) (L.block b)) (L.item b + 8)) (none :: free.map some) := by
      refine upTo.ring.frame fun a member => ?_
      have other := away a member
      constructor
      · rw [psListLlInit, show L.item b + 8 = L.poolNodes.addr (some b) from rfl,
          selfLink_other (fun same => other (L.poolNodes.inj same)) (L.poolNodes.apart _ _),
          store_other (L.item_ne_links b a).1.symm]
      · rw [psListLlInit, show L.item b + 8 = L.poolNodes.addr (some b) from rfl,
          selfLink_other (L.poolNodes.apart _ _).symm (fun same => other ((L.poolNodes.prev_eq_prev _ _).mp same)),
          store_other (L.item_ne_links b a).2.symm]
    obtain ⟨ring', same⟩ := ring_append ring new
    have next : L.block b + memMgrObjSz = L.block (b + 1) := by
      simp only [Layout.block, Nat.succ_mul]
      omega
    simp only [memMgrInitLoop]
    rw [next]
    refine ih (free ++ [b]) (by omega) ⟨ring', ?_, fun i bound => ?_⟩
    · rw [List.map_append, upTo.blocks, List.range_succ]
      rfl
    · refine (same i).trans ?_
      rw [psListLlInit, show L.item b + 8 = L.poolNodes.addr (some b) from rfl,
        selfLink_other (L.item_ne_links i _).1 (L.item_ne_links i _).2]
      by_cases here : i = b
      · rw [here, store_same]
      · have differ : L.item i ≠ L.item b := by
          have vals := Fin.val_ne_of_ne here
          simp only [Layout.item, sizeofFreeMemItem]
          omega
        rw [store_other differ]
        exact upTo.addr i (by have vals := Fin.val_ne_of_ne here; omega)

/-- **`mem_mgr_init`** puts all blocks into the pool, whatever was in the memory of the items. -/
theorem memMgrInit_pool (L : Layout) (m : Mem) : Pool L (memMgrInit L m) (List.finRange memMgrObjNum) := by
  have started : PoolUpTo L (psListLlInit m L.head) 0 [] :=
    ⟨ring_selfLink (N := L.poolNodes) (l := none), rfl, fun i bound => absurd bound (Nat.not_lt_zero _)⟩
  have all := memMgrInitLoop_pool memMgrObjNum [] (Nat.zero_add _) started
  rwa [show L.block 0 = L.start by simp [Layout.block]] at all

end BiProject.Slab
