import BiProject.Constant
import BiProject.Lib.Regions
import BiProject.Rpc.MsgQueue

/-!
# The layout of the global memory

`init_global_memory` of `libs/mem/mem_mgr.c`, which the master node calls once. It places the rings of the remote calls, the
records of the sections, the rings of the freed objects and of the write logs, the test objects, the lists of the blocks
and the blocks themselves behind `struct Mem_layout`, one after another, and notes where they are.
-/

namespace BiProject.Layout
set_option autoImplicit false
open BiProject.Lib.Regions
open BiProject.Rpc (msgNum maxMsgSize)

def numNodes : Nat := 4
def numCorePerNode : Nat := 18
def pageSize : Nat := 4096
def maxTestObjNum : Nat := 1024

/-- The sizes of the structures that are placed. Those of `struct Mem_layout` and `struct RCU_block` come with types of
other libraries. -/
structure External where
  sizeofMemLayout : Nat
  sizeofRcuBlock : Nat

/-- `struct msg_meta` is aligned to two lines. -/
def sizeofMsgNode : Nat := 2 * cacheLine + maxMsgSize
def sizeofMsgQueue : Nat := msgNum * sizeofMsgNode
def sizeofParsec : Nat := cacheLine
def sizeofQuiesItem : Nat := 24
def sizeofBiQscRing : Nat := cacheLine + maxQuiRingLen * sizeofQuiesItem
def sizeofTestObj : Nat := cacheLine
def sizeofFreeMemList : Nat := memMgrObjNum * sizeofFreeMemItem

/-- `round_up_to_page`. -/
def roundUpToPage (x : Nat) : Nat := (x + pageSize - 1) / pageSize * pageSize

/-! ## Placing -/

/-- A loop that fills `n` entries of a table, each from the address where the one before ends. -/
def fill {β : Type} (place : Nat → β × Nat) : Nat → Nat → List β × Nat
  | 0, addr => ([], addr)
  | n + 1, addr =>
    let (b, addr) := place addr
    let (bs, addr) := fill place n addr
    (b :: bs, addr)

/-- One structure of a size. -/
def placeOne (size addr : Nat) : Nat × Nat := (addr, addr + size)

/-- `struct Per_node_info`, and the loops `__init_quies_rings`, `__init_mem_free_lists` and `__init_mem_start_addr`. -/
abbrev PerNodeInfo := List Nat

def initPerNode (size : Nat) : Nat → PerNodeInfo × Nat := fill (placeOne size) numNodes

/-- `struct Per_core_info`, and the loops `__init_rpc_rings`, `__init_parsec_times` and `__init_wlogs_rings`. -/
abbrev PerCoreInfo := List (List Nat)

def initPerCore (size : Nat) : Nat → PerCoreInfo × Nat := fill (fill (placeOne size) numCorePerNode) numNodes

def initRpcRings : Nat → PerCoreInfo × Nat := initPerCore sizeofMsgQueue
def initParsecTimes : Nat → PerCoreInfo × Nat := initPerCore sizeofParsec
def initQuiesRings : Nat → PerNodeInfo × Nat := initPerNode sizeofBiQscRing
def initWlogsRings : Nat → PerCoreInfo × Nat := initPerCore sizeofBiQscRing
def initMemFreeLists : Nat → PerNodeInfo × Nat := initPerNode sizeofFreeMemList
def initMemStartAddr : Nat → PerNodeInfo × Nat := initPerNode (memMgrObjSz * memMgrObjNum)

/-- `struct Mem_layout`, and the address that `init_global_memory` returns. -/
structure MemLayout where
  rpcArea : Nat
  parsecArea : Nat
  quiesArea : Nat
  wlogArea : Nat
  testObjArea : Nat
  memListArea : Nat
  rcuArea : Nat
  dataArea : Nat
  sendRings : List PerCoreInfo
  recvRings : List PerCoreInfo
  parsecTimes : PerCoreInfo
  quiesRings : PerNodeInfo
  wlogRings : PerCoreInfo
  memFreeLists : PerNodeInfo
  memStartAddr : PerNodeInfo
  mallocStartAddr : PerNodeInfo
  stop : Nat

def initGlobalMemory (E : External) (globalMemory mallocArea : Nat) : MemLayout :=
  let addr := roundUpToPage (globalMemory + E.sizeofMemLayout)
  let rpcArea := addr
  let (sendRings, addr) := fill initRpcRings numNodes addr
  let (recvRings, addr) := fill initRpcRings numNodes addr
  let addr := roundUpToPage addr
  let parsecArea := addr
  let (parsecTimes, addr) := initParsecTimes addr
  let addr := roundUpToPage addr
  let quiesArea := addr
  let (quiesRings, addr) := initQuiesRings addr
  let addr := roundUpToPage addr
  let wlogArea := addr
  let (wlogRings, addr) := initWlogsRings addr
  let addr := roundUpToPage addr
  let testObjArea := addr
  let addr := addr + maxTestObjNum * sizeofTestObj
  let addr := roundUpToPage addr
  let memListArea := addr
  let (memFreeLists, addr) := initMemFreeLists addr
  let addr := roundUpToPage addr
  let rcuArea := addr
  let addr := addr + E.sizeofRcuBlock
  let addr := roundUpToPage addr
  let dataArea := addr
  let (memStartAddr, addr) := initMemStartAddr addr
  let (mallocStartAddr, _) := initMemStartAddr mallocArea
  ⟨rpcArea, parsecArea, quiesArea, wlogArea, testObjArea, memListArea, rcuArea, dataArea, sendRings, recvRings, parsecTimes, quiesRings,
    wlogRings, memFreeLists, memStartAddr, mallocStartAddr, addr⟩

/-! ## Looking up -/

/-- An entry of a table, NULL where there is none. -/
def entry (table : PerNodeInfo) (n : Nat) : Nat := table.getD n 0
def entry2 (table : PerCoreInfo) (n c : Nat) : Nat := (table.getD n []).getD c 0
def entry3 (table : List PerCoreInfo) (nid n c : Nat) : Nat := entry2 (table.getD nid []) n c

namespace MemLayout

/-- The getters of `include/mem_mgr.h`, with `NODE_ID()` and `CORE_ID()`. -/
def getSendRing (L : MemLayout) (node core nid : Nat) : Nat := entry3 L.sendRings nid node core
def getRecvRing (L : MemLayout) (node core nid : Nat) : Nat := entry3 L.recvRings nid node core
def getSendRingServer (L : MemLayout) (node nid cid : Nat) : Nat := entry3 L.recvRings node nid cid
def getRecvRingServer (L : MemLayout) (node nid cid : Nat) : Nat := entry3 L.sendRings node nid cid
def getParsecTime (L : MemLayout) (nid cid : Nat) : Nat := entry2 L.parsecTimes nid cid
def getQuiesRing (L : MemLayout) (nid : Nat) : Nat := entry L.quiesRings nid
def getWlogRing (L : MemLayout) (nid cid : Nat) : Nat := entry2 L.wlogRings nid cid
def getTestObj (L : MemLayout) (id : Nat) : Nat := L.testObjArea + id * sizeofTestObj
def getMemFreeList (L : MemLayout) (nid : Nat) : Nat := entry L.memFreeLists nid
def getRcuArea (L : MemLayout) : Nat := L.rcuArea
def getMemStartAddr (L : MemLayout) (nid : Nat) : Nat := entry L.memStartAddr nid

end MemLayout

end BiProject.Layout
