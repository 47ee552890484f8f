import Mathlib.Algebra.Group.Nat.Defs

/-!
# Build constants

The values of `include/constant.h` that the modelled code reads, the sizes of the packed
structures of `include/bi_slab.h` and `include/mem_mgr.h`, and the width of `uint64_t`.
-/

namespace BiProject
set_option autoImplicit false

/-- `uint64_t`, `size_t` and pointers wrap here. -/
def u64 : Nat := 2 ^ 64

def cacheLine : Nat := 64

/-- Size of a block of the `mem_mgr` pool, and how many a node has. -/
def memMgrObjSz : Nat := 1024 * 1024
def memMgrObjNum : Nat := 80 * 1024

/-- Slots of a quiescence or write-log ring, and entries of the local cache in front of it. -/
def maxQuiRingLen : Nat := 128 * 4096
def localCacheQueueSz : Nat := 4096

def quiseFlushPeriod : Nat := 2000000
def flushGracePeriod : Nat := 5 * quiseFlushPeriod

/-- `sizeof(struct ps_mheader)` and `sizeof(struct ps_slab)`, both packed. -/
def sizeofPsMheader : Nat := 24
def sizeofPsSlab : Nat := 128

/-- `sizeof(struct Free_mem_item)`, packed. -/
def sizeofFreeMemItem : Nat := 24

end BiProject
