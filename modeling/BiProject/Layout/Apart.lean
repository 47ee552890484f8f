import BiProject.Layout.GlobalMemory

/-!
# What is where

Each table of the layout is a row of structures, and the rows are one after another. So no two structures overlap, whichever
nodes and cores they are for.
-/

namespace BiProject.Layout
set_option autoImplicit false
open BiProject.Lib.Regions
open BiProject.Rpc (msgNum maxMsgSize)

/-! ## Tables -/

section
variable {β : Type} {place : Nat → β × Nat} {width : Nat}

/-- A table ends as many widths on as it has entries, -/
theorem fill_stop (wide : ∀ a, (place a).2 = a + width) (n addr : Nat) : (fill place n addr).2 = addr + n * width := by
  induction n generalizing addr with
  | zero => simp [fill]
  | succ n ih =>
    simp only [fill, ih, wide]
    rw [Nat.succ_mul]
    omega

/-- and an entry is what was placed that many widths on. -/
theorem fill_get (wide : ∀ a, (place a).2 = a + width) {n i : Nat} (inside : i < n) (addr : Nat) :
    (fill place n addr).1[i]? = some (place (addr + i * width)).1 := by
  induction n generalizing addr i with
  | zero => exact absurd inside (Nat.not_lt_zero i)
  | succ n ih =>
    cases i with
    | zero => simp [fill]
    | succ i =>
      simp only [fill, List.getElem?_cons_succ]
      rw [ih (by omega), wide, Nat.succ_mul]
      congr 3
      omega

end

/-- Where a table of the nodes ends, -/
theorem initPerNode_stop (size addr : Nat) : (initPerNode size addr).2 = addr + numNodes * size := fill_stop (fun _ => rfl) _ _

/-- one of the cores, -/
theorem initPerCore_stop (size addr : Nat) : (initPerCore size addr).2 = addr + numNodes * (numCorePerNode * size) :=
  fill_stop (fun a => fill_stop (fun _ => rfl) _ a) _ _

/-- the rings of one server -/
theorem initRpcRings_stop (addr : Nat) : (initRpcRings addr).2 = addr + numNodes * (numCorePerNode * sizeofMsgQueue) := initPerCore_stop _ addr

/-- and those of all. -/
theorem rings_stop (addr : Nat) : (fill initRpcRings numNodes addr).2 = addr + numNodes * (numNodes * (numCorePerNode * sizeofMsgQueue)) :=
  fill_stop initRpcRings_stop _ _

/-- Where the structure of a node is, -/
theorem initPerNode_entry (size addr : Nat) {n : Nat} (node : n < numNodes) : entry (initPerNode size addr).1 n = addr + n * size := by
  rw [entry, List.getD_eq_getElem?_getD, initPerNode, fill_get (fun _ => rfl) node]
  rfl

/-- that of a core -/
theorem initPerCore_entry (size addr : Nat) {n c : Nat} (node : n < numNodes) (core : c < numCorePerNode) :
    entry2 (initPerCore size addr).1 n c = addr + (n * numCorePerNode + c) * size := by
  rw [entry2, List.getD_eq_getElem?_getD, List.getD_eq_getElem?_getD, initPerCore, fill_get (fun a => fill_stop (fun _ => rfl) _ a) node,
    Option.getD_some, fill_get (fun _ => rfl) core]
  simp only [placeOne, Option.getD_some, Nat.add_mul, Nat.mul_assoc, Nat.add_assoc]

/-- and the ring of a core with a server. -/
theorem rings_entry (addr : Nat) {nid n c : Nat} (server : nid < numNodes) (node : n < numNodes) (core : c < numCorePerNode) :
    entry3 (fill initRpcRings numNodes addr).1 nid n c = addr + ((nid * numNodes + n) * numCorePerNode + c) * sizeofMsgQueue := by
  rw [entry3, List.getD_eq_getElem?_getD, fill_get initRpcRings_stop server, Option.getD_some, initRpcRings,
    initPerCore_entry _ _ node core]
  simp only [Nat.add_mul, Nat.mul_assoc, Nat.add_assoc]

/-! ## Structures -/

/-- The structures of the global memory: the rings of a server for a core, the records and logs of a core, and so on. -/
inductive Struct where
  | memLayout
  | sendRing (nid node core : Nat)
  | recvRing (nid node core : Nat)
  | parsecTime (node core : Nat)
  | quiesRing (node : Nat)
  | wlogRing (node core : Nat)
  | testObj (id : Nat)
  | memFreeList (node : Nat)
  | rcuBlock
  | memStart (node : Nat)

/-- The nodes and cores of a structure exist. -/
def Struct.Valid : Struct → Prop
  | .memLayout => True
  | .sendRing nid node core => nid < numNodes ∧ node < numNodes ∧ core < numCorePerNode
  | .recvRing nid node core => nid < numNodes ∧ node < numNodes ∧ core < numCorePerNode
  | .parsecTime node core => node < numNodes ∧ core < numCorePerNode
  | .quiesRing node => node < numNodes
  | .wlogRing node core => node < numNodes ∧ core < numCorePerNode
  | .testObj id => id < maxTestObjNum
  | .memFreeList node => node < numNodes
  | .rcuBlock => True
  | .memStart node => node < numNodes

/-- Where a structure is, by the getters, and its size. -/
def MemLayout.region (L : MemLayout) (E : External) (globalMemory : Nat) : Struct → Region
  | .memLayout => ⟨globalMemory, E.sizeofMemLayout⟩
  | .sendRing nid node core => ⟨L.getSendRing node core nid, sizeofMsgQueue⟩
  | .recvRing nid node core => ⟨L.getRecvRing node core nid, sizeofMsgQueue⟩
  | .parsecTime node core => ⟨L.getParsecTime node core, sizeofParsec⟩
  | .quiesRing node => ⟨L.getQuiesRing node, sizeofBiQscRing⟩
  | .wlogRing node core => ⟨L.getWlogRing node core, sizeofBiQscRing⟩
  | .testObj id => ⟨L.getTestObj id, sizeofTestObj⟩
  | .memFreeList node => ⟨L.getMemFreeList node, sizeofFreeMemList⟩
  | .rcuBlock => ⟨L.getRcuArea, E.sizeofRcuBlock⟩
  | .memStart node => ⟨L.getMemStartAddr node, memMgrObjSz * memMgrObjNum⟩

/-- The table a structure is in, and its place there. -/
inductive Kind where
  | memLayout
  | sendRing
  | recvRing
  | parsecTime
  | quiesRing
  | wlogRing
  | testObj
  | memFreeList
  | rcuBlock
  | memStart
deriving DecidableEq

/-- The table of a structure, -/
def Struct.kind : Struct → Kind
  | .memLayout => .memLayout
  | .sendRing _ _ _ => .sendRing
  | .recvRing _ _ _ => .recvRing
  | .parsecTime _ _ => .parsecTime
  | .quiesRing _ => .quiesRing
  | .wlogRing _ _ => .wlogRing
  | .testObj _ => .testObj
  | .memFreeList _ => .memFreeList
  | .rcuBlock => .rcuBlock
  | .memStart _ => .memStart

/-- and its place there. -/
def Struct.index : Struct → Nat
  | .memLayout => 0
  | .sendRing nid node core => (nid * numNodes + node) * numCorePerNode + core
  | .recvRing nid node core => (nid * numNodes + node) * numCorePerNode + core
  | .parsecTime node core => node * numCorePerNode + core
  | .quiesRing node => node
  | .wlogRing node core => node * numCorePerNode + core
  | .testObj id => id
  | .memFreeList node => node
  | .rcuBlock => 0
  | .memStart node => node

/-- The row of a table. -/
def MemLayout.row (L : MemLayout) (E : External) (globalMemory : Nat) : Kind → Row
  | .memLayout => ⟨globalMemory, E.sizeofMemLayout, 1⟩
  | .sendRing => ⟨L.rpcArea, sizeofMsgQueue, numNodes * numNodes * numCorePerNode⟩
  | .recvRing => ⟨L.rpcArea + numNodes * numNodes * numCorePerNode * sizeofMsgQueue, sizeofMsgQueue, numNodes * numNodes * numCorePerNode⟩
  | .parsecTime => ⟨L.parsecArea, sizeofParsec, numNodes * numCorePerNode⟩
  | .quiesRing => ⟨L.quiesArea, sizeofBiQscRing, numNodes⟩
  | .wlogRing => ⟨L.wlogArea, sizeofBiQscRing, numNodes * numCorePerNode⟩
  | .testObj => ⟨L.testObjArea, sizeofTestObj, maxTestObjNum⟩
  | .memFreeList => ⟨L.memListArea, sizeofFreeMemList, numNodes⟩
  | .rcuBlock => ⟨L.rcuArea, E.sizeofRcuBlock, 1⟩
  | .memStart => ⟨L.dataArea, memMgrObjSz * memMgrObjNum, numNodes⟩

/-- The RCU area is a table with one entry. -/
theorem rcuBlock_slot (L : MemLayout) (E : External) (globalMemory : Nat) :
    L.region E globalMemory .rcuBlock = (L.row E globalMemory Struct.rcuBlock.kind).slot Struct.rcuBlock.index := by
  simp [Struct.index, Struct.kind, MemLayout.row, MemLayout.region, MemLayout.getRcuArea, Row.slot]

section
variable (E : External) (globalMemory mallocArea : Nat)

/-- Rounding up goes up. -/
theorem le_roundUpToPage (x : Nat) : x ≤ roundUpToPage x := by
  unfold roundUpToPage pageSize
  omega

/-- The place of a structure is in its table. -/
theorem index_lt (o : Struct) (valid : o.Valid) : o.index < ((initGlobalMemory E globalMemory mallocArea).row E globalMemory o.kind).count := by
  cases o <;> simp only [Struct.Valid, Struct.index, Struct.kind, MemLayout.row, numNodes, numCorePerNode] at valid ⊢ <;> omega

/-- Each structure is where its table has it. -/
theorem region_slot (o : Struct) (valid : o.Valid) : (initGlobalMemory E globalMemory mallocArea).region E globalMemory o =
    ((initGlobalMemory E globalMemory mallocArea).row E globalMemory o.kind).slot o.index := by
  cases o with
  | memLayout => simp [Struct.index, Struct.kind, MemLayout.row, MemLayout.region, Row.slot]
  | sendRing nid node core =>
    obtain ⟨server, node, core⟩ := valid
    simp only [MemLayout.region, MemLayout.getSendRing, initGlobalMemory, rings_entry _ server node core]
    simp only [Struct.index, Struct.kind, MemLayout.row, Row.slot]
  | recvRing nid node core =>
    obtain ⟨server, node, core⟩ := valid
    simp only [MemLayout.region, MemLayout.getRecvRing, initGlobalMemory, rings_entry _ server node core, rings_stop]
    simp only [Struct.index, Struct.kind, MemLayout.row, Row.slot, Nat.mul_assoc]
  | parsecTime node core =>
    obtain ⟨node, core⟩ := valid
    simp only [MemLayout.region, MemLayout.getParsecTime, initGlobalMemory, initParsecTimes, initPerCore_entry _ _ node core]
    simp only [Struct.index, Struct.kind, MemLayout.row, Row.slot]
  | quiesRing node =>
    simp only [MemLayout.region, MemLayout.getQuiesRing, initGlobalMemory, initQuiesRings, initPerNode_entry _ _ valid]
    simp only [Struct.index, Struct.kind, MemLayout.row, Row.slot]
  | wlogRing node core =>
    obtain ⟨node, core⟩ := valid
    simp only [MemLayout.region, MemLayout.getWlogRing, initGlobalMemory, initWlogsRings, initPerCore_entry _ _ node core]
    simp only [Struct.index, Struct.kind, MemLayout.row, Row.slot]
  | testObj id => simp only [MemLayout.region, MemLayout.getTestObj, Struct.index, Struct.kind, MemLayout.row, Row.slot]
  | memFreeList node =>
    simp only [MemLayout.region, MemLayout.getMemFreeList, initGlobalMemory, initMemFreeLists, initPerNode_entry _ _ valid]
    simp only [Struct.index, Struct.kind, MemLayout.row, Row.slot]
  | rcuBlock => exact rcuBlock_slot _ E globalMemory
  | memStart node =>
    simp only [MemLayout.region, MemLayout.getMemStartAddr, initGlobalMemory, initMemStartAddr, initPerNode_entry _ _ valid]
    simp only [Struct.index, Struct.kind, MemLayout.row, Row.slot]

/-- The tables in their order. -/
def kinds : List Kind :=
  [.memLayout, .sendRing, .recvRing, .parsecTime, .quiesRing, .wlogRing, .testObj, .memFreeList, .rcuBlock, .memStart]

/-- There are no others. -/
theorem mem_kinds (k : Kind) : k ∈ kinds := by cases k <;> decide

/-- **The tables follow one another**, -/
theorem rows_follow : Follow globalMemory (kinds.map ((initGlobalMemory E globalMemory mallocArea).row E globalMemory))
    (initGlobalMemory E globalMemory mallocArea).stop := by
  simp only [kinds, List.map_cons, List.map_nil, Follow, MemLayout.row, Row.stop, initGlobalMemory, initParsecTimes, initQuiesRings,
    initWlogsRings, initMemFreeLists, initMemStartAddr, initPerCore_stop, initPerNode_stop, rings_stop, Nat.mul_assoc, Nat.one_mul]
  exact ⟨Nat.le_refl _, le_roundUpToPage _, Nat.le_refl _, le_roundUpToPage _, le_roundUpToPage _, le_roundUpToPage _, le_roundUpToPage _,
    le_roundUpToPage _, le_roundUpToPage _, le_roundUpToPage _, Nat.le_refl _⟩

/-- so that they are apart, -/
theorem rows_away {k k' : Kind} (differ : k ≠ k') : ((initGlobalMemory E globalMemory mallocArea).row E globalMemory k).Away
    ((initGlobalMemory E globalMemory mallocArea).row E globalMemory k') := by
  have away := List.pairwise_map.mp (rows_follow E globalMemory mallocArea).away
  exact away.forall (mem_kinds k) (mem_kinds k') differ

/-- and they are in the global memory. -/
theorem row_bounds (k : Kind) : globalMemory ≤ ((initGlobalMemory E globalMemory mallocArea).row E globalMemory k).start ∧
    ((initGlobalMemory E globalMemory mallocArea).row E globalMemory k).stop ≤ (initGlobalMemory E globalMemory mallocArea).stop :=
  (rows_follow E globalMemory mallocArea).bounds _ (List.mem_map.mpr ⟨k, mem_kinds k, rfl⟩)

end

/-- A place in a table is for one structure. -/
theorem index_injective {o o' : Struct} (valid : o.Valid) (valid' : o'.Valid) (kind : o.kind = o'.kind) (index : o.index = o'.index) : o = o' := by
  cases o <;> cases o' <;> simp only [Struct.kind, reduceCtorEq] at kind <;>
    simp only [Struct.Valid, Struct.index, numNodes, numCorePerNode] at valid valid' index <;> grind

/-- No two structures overlap, -/
theorem region_apart (E : External) (globalMemory mallocArea : Nat) {o o' : Struct} (valid : o.Valid) (valid' : o'.Valid) (differ : o ≠ o') :
    ((initGlobalMemory E globalMemory mallocArea).region E globalMemory o).Apart
      ((initGlobalMemory E globalMemory mallocArea).region E globalMemory o') := by
  rw [region_slot E globalMemory mallocArea o valid, region_slot E globalMemory mallocArea o' valid']
  by_cases kind : o.kind = o'.kind
  · rw [kind]
    apply Row.slot_apart
    exact fun index => differ (index_injective valid valid' kind index)
  · apply (rows_away E globalMemory mallocArea kind).slots
    · exact index_lt E globalMemory mallocArea o valid
    · exact index_lt E globalMemory mallocArea o' valid'

/-- and all are in the global memory. -/
theorem region_bounds (E : External) (globalMemory mallocArea : Nat) {o : Struct} (valid : o.Valid) :
    globalMemory ≤ ((initGlobalMemory E globalMemory mallocArea).region E globalMemory o).start ∧
      ((initGlobalMemory E globalMemory mallocArea).region E globalMemory o).start +
        ((initGlobalMemory E globalMemory mallocArea).region E globalMemory o).size ≤ (initGlobalMemory E globalMemory mallocArea).stop := by
  rw [region_slot E globalMemory mallocArea o valid]
  have row := row_bounds E globalMemory mallocArea o.kind
  have slot := Row.slot_inside _ (index_lt E globalMemory mallocArea o valid)
  omega

/-! ## Lines -/

/-- A page begins with a line. -/
theorem cacheLine_dvd_roundUpToPage (x : Nat) : cacheLine ∣ roundUpToPage x := by
  apply Nat.dvd_mul_left_of_dvd
  decide

/-- Every table but the first begins with a line. -/
theorem row_aligned (E : External) (globalMemory mallocArea : Nat) {k : Kind} (rest : k ≠ .memLayout) :
    cacheLine ∣ ((initGlobalMemory E globalMemory mallocArea).row E globalMemory k).start := by
  cases k with
  | memLayout => exact absurd rfl rest
  | recvRing =>
    apply Nat.dvd_add (cacheLine_dvd_roundUpToPage _)
    decide
  | sendRing | parsecTime | quiesRing | wlogRing | testObj | memFreeList | rcuBlock | memStart => exact cacheLine_dvd_roundUpToPage _

/-- The structures of a table are whole lines. -/
theorem row_lines (L : MemLayout) (E : External) (globalMemory : Nat) {o : Struct} (rest : o ≠ .memLayout) :
    cacheLine ∣ o.index * (L.row E globalMemory o.kind).size := by
  cases o with
  | memLayout => exact absurd rfl rest
  | rcuBlock => exact ⟨0, Nat.zero_mul _⟩
  | sendRing | recvRing | parsecTime | quiesRing | wlogRing | testObj | memFreeList | memStart =>
    apply Nat.dvd_mul_left_of_dvd
    simp only [Struct.kind, MemLayout.row]
    decide

/-- So each structure but `struct Mem_layout` begins with a line. -/
theorem region_aligned (E : External) (globalMemory mallocArea : Nat) {o : Struct} (valid : o.Valid) (rest : o ≠ .memLayout) :
    cacheLine ∣ ((initGlobalMemory E globalMemory mallocArea).region E globalMemory o).start := by
  rw [region_slot E globalMemory mallocArea o valid]
  apply Nat.dvd_add
  · apply row_aligned
    intro kind
    cases o <;> simp_all [Struct.kind]
  · exact row_lines _ E globalMemory rest

/-- `struct Mem_layout` itself need not begin with a line, but everything else comes after it. -/
theorem memLayout_lineApart (E : External) (globalMemory mallocArea : Nat) {o : Struct} (valid : o.Valid) (rest : o ≠ .memLayout) :
    ((initGlobalMemory E globalMemory mallocArea).region E globalMemory .memLayout).LineApart cacheLine
      ((initGlobalMemory E globalMemory mallocArea).region E globalMemory o) := by
  have first : Struct.memLayout.Valid := trivial
  rcases region_apart E globalMemory mallocArea first valid (Ne.symm rest) with before | after
  · exact Region.lineApart_of_le (by decide) before (region_aligned E globalMemory mallocArea valid rest)
  · -- only something empty could be before it
    intro a b _ inside
    have low := (region_bounds E globalMemory mallocArea valid).1
    have stop : ((initGlobalMemory E globalMemory mallocArea).region E globalMemory o).start +
        ((initGlobalMemory E globalMemory mallocArea).region E globalMemory o).size ≤ globalMemory := after
    have := inside.1
    have := inside.2
    omega

/-- So two structures have no line in common. -/
theorem region_lineApart (E : External) (globalMemory mallocArea : Nat) {o o' : Struct} (valid : o.Valid) (valid' : o'.Valid)
    (differ : o ≠ o') : ((initGlobalMemory E globalMemory mallocArea).region E globalMemory o).LineApart cacheLine
      ((initGlobalMemory E globalMemory mallocArea).region E globalMemory o') := by
  by_cases first : o = .memLayout
  · subst first
    exact memLayout_lineApart E globalMemory mallocArea valid' (Ne.symm differ)
  · by_cases second : o' = .memLayout
    · subst second
      exact (memLayout_lineApart E globalMemory mallocArea valid first).symm
    · exact (region_apart E globalMemory mallocArea valid valid' differ).lineApart (by decide)
        (region_aligned E globalMemory mallocArea valid first) (region_aligned E globalMemory mallocArea valid' second)

/-- **No two structures of the global memory share a cache line**, and all of them are within what `init_global_memory`
reports. So writing back or dropping the lines of one never touches what another node wrote to the other. -/
theorem structures_share_no_line (E : External) (globalMemory mallocArea : Nat) (o : Struct) (valid : o.Valid) :
    let L := initGlobalMemory E globalMemory mallocArea
    (∀ a, (L.region E globalMemory o).Has a → globalMemory ≤ a ∧ a < L.stop) ∧
      ∀ o', Struct.Valid o' → o ≠ o' → (L.region E globalMemory o).LineApart cacheLine (L.region E globalMemory o') := by
  have bounds := region_bounds E globalMemory mallocArea valid
  constructor
  · intro a inside
    have := inside.1
    have := inside.2
    omega
  · intro o' valid' differ
    exact region_lineApart E globalMemory mallocArea valid valid' differ

/-- A ring and the record of a core. -/
theorem structures_share_no_line_ring : let E := ⟨40000, 12000⟩
    let L := initGlobalMemory E 0 0
    (∀ a, (L.region E 0 (.sendRing 3 2 17)).Has a → 0 ≤ a ∧ a < L.stop) ∧
      ∀ o', Struct.Valid o' → Struct.sendRing 3 2 17 ≠ o' → (L.region E 0 (.sendRing 3 2 17)).LineApart cacheLine (L.region E 0 o') :=
  structures_share_no_line ⟨40000, 12000⟩ 0 0 (.sendRing 3 2 17) ⟨by decide, by decide, by decide⟩

/-! ## Messages -/

/-- Where a ring of the remote calls is. -/
def MemLayout.ringAddr (L : MemLayout) (q : Rpc.Ring) : Nat :=
  match q.way with
  | .request => entry3 L.sendRings q.srv q.nid q.cid
  | .reply => entry3 L.recvRings q.srv q.nid q.cid

/-- The header and the text of a message. -/
inductive Part where
  | hdr | data
deriving DecidableEq

/-- A part of slot `i` of a ring. -/
def MemLayout.part (L : MemLayout) (q : Rpc.Ring) (i : Nat) : Part → Region
  | .hdr => ⟨L.ringAddr q + i * sizeofMsgNode, 2 * cacheLine⟩
  | .data => ⟨L.ringAddr q + i * sizeofMsgNode + 2 * cacheLine, maxMsgSize⟩

/-- The structure that a ring of the remote calls is. -/
def ringStruct (q : Rpc.Ring) : Struct :=
  match q.way with
  | .request => .sendRing q.srv q.nid q.cid
  | .reply => .recvRing q.srv q.nid q.cid

/-- Its nodes and cores exist. -/
def RingValid (q : Rpc.Ring) : Prop := q.srv < numNodes ∧ q.nid < numNodes ∧ q.cid < numCorePerNode

/-- The structure exists then, -/
theorem ringStruct_valid {q : Rpc.Ring} (valid : RingValid q) : (ringStruct q).Valid := by
  obtain ⟨way, srv, nid, cid⟩ := q
  cases way <;> exact valid

/-- and no other ring is there. -/
theorem ringStruct_injective {q q' : Rpc.Ring} (same : ringStruct q = ringStruct q') : q = q' := by
  obtain ⟨way, srv, nid, cid⟩ := q
  obtain ⟨way', srv', nid', cid'⟩ := q'
  cases way <;> cases way' <;> simp_all [ringStruct]

/-- It is where the getters find the ring. -/
theorem ringStruct_region (L : MemLayout) (E : External) (globalMemory : Nat) (q : Rpc.Ring) :
    L.region E globalMemory (ringStruct q) = ⟨L.ringAddr q, sizeofMsgQueue⟩ := by
  obtain ⟨way, srv, nid, cid⟩ := q
  cases way <;> rfl

/-- A ring begins with a line, -/
theorem ringAddr_aligned (E : External) (globalMemory mallocArea : Nat) {q : Rpc.Ring} (valid : RingValid q) :
    cacheLine ∣ (initGlobalMemory E globalMemory mallocArea).ringAddr q := by
  have rest : ringStruct q ≠ .memLayout := by
    obtain ⟨way, srv, nid, cid⟩ := q
    cases way <;> simp [ringStruct]
  have aligned := region_aligned E globalMemory mallocArea (ringStruct_valid valid) rest
  rw [ringStruct_region] at aligned
  exact aligned

/-- and so does each part of each of its messages. -/
theorem part_aligned (E : External) (globalMemory mallocArea : Nat) {q : Rpc.Ring} (valid : RingValid q) (i : Nat) (p : Part) :
    cacheLine ∣ ((initGlobalMemory E globalMemory mallocArea).part q i p).start := by
  have ring := ringAddr_aligned E globalMemory mallocArea valid
  have slot : cacheLine ∣ i * sizeofMsgNode := Nat.dvd_mul_left_of_dvd (by decide) i
  cases p with
  | hdr => exact Nat.dvd_add ring slot
  | data => exact Nat.dvd_add (Nat.dvd_add ring slot) (by decide)

/-- A part is inside its ring. -/
theorem part_inside (L : MemLayout) (q : Rpc.Ring) {i : Nat} (inside : i < msgNum) (p : Part) :
    L.ringAddr q ≤ (L.part q i p).start ∧ (L.part q i p).start + (L.part q i p).size ≤ L.ringAddr q + sizeofMsgQueue := by
  cases p <;> simp only [MemLayout.part, sizeofMsgQueue, sizeofMsgNode, msgNum, maxMsgSize, cacheLine] at inside ⊢ <;> omega

/-- Two parts of one ring do not overlap. -/
theorem part_apart (L : MemLayout) (q : Rpc.Ring) {i i' : Nat} {p p' : Part} (differ : (i, p) ≠ (i', p')) :
    (L.part q i p).Apart (L.part q i' p') := by
  unfold Region.Apart
  rcases Nat.lt_trichotomy i i' with less | rfl | greater
  · cases p <;> cases p' <;> simp only [MemLayout.part, sizeofMsgNode, maxMsgSize, cacheLine] <;> omega
  · cases p <;> cases p' <;> simp only [MemLayout.part, ne_eq, not_true_eq_false] at differ ⊢ <;> omega
  · cases p <;> cases p' <;> simp only [MemLayout.part, sizeofMsgNode, maxMsgSize, cacheLine] <;> omega

/-- **The parts of messages share no cache line**, of one slot, of one ring or of different rings; and the getters of the two ends of
a call agree where its rings are. -/
theorem message_parts_share_no_line (E : External) (globalMemory mallocArea : Nat) (q q' : Rpc.Ring) (valid : RingValid q) (valid' : RingValid q')
    (i i' : Nat) (inside : i < msgNum) (inside' : i' < msgNum) (p p' : Part) (differ : (q, i, p) ≠ (q', i', p')) :
    let L := initGlobalMemory E globalMemory mallocArea
    (L.part q i p).LineApart cacheLine (L.part q' i' p') ∧
      (∀ server client core, L.getSendRing client core server = L.ringAddr (Rpc.getSendRing client core server) ∧
        L.getRecvRingServer server client core = L.ringAddr (Rpc.getSendRing client core server) ∧
        L.getSendRingServer server client core = L.ringAddr (Rpc.getRecvRing client core server) ∧
        L.getRecvRing client core server = L.ringAddr (Rpc.getRecvRing client core server)) := by
  constructor
  · apply Region.Apart.lineApart (by decide) ?_ (part_aligned E globalMemory mallocArea valid i p)
      (part_aligned E globalMemory mallocArea valid' i' p')
    by_cases ring : q = q'
    · subst ring
      exact part_apart _ q fun same => differ (congrArg (Prod.mk q) same)
    · have apart := region_apart E globalMemory mallocArea (ringStruct_valid valid) (ringStruct_valid valid')
        fun same => ring (ringStruct_injective same)
      rw [ringStruct_region, ringStruct_region] at apart
      have here := part_inside (initGlobalMemory E globalMemory mallocArea) q inside p
      have there := part_inside (initGlobalMemory E globalMemory mallocArea) q' inside' p'
      unfold Region.Apart at apart ⊢
      simp only at apart
      omega
  · intro server client core
    exact ⟨rfl, rfl, rfl, rfl⟩

/-- The field of one message and the bytes of the next. -/
theorem message_parts_share_no_line_next : let L := initGlobalMemory ⟨40000, 12000⟩ 0 0
    (L.part ⟨.request, 0, 1, 2⟩ 7 .data).LineApart cacheLine (L.part ⟨.request, 0, 1, 3⟩ 0 .hdr) ∧
      (∀ server client core, L.getSendRing client core server = L.ringAddr (Rpc.getSendRing client core server) ∧
        L.getRecvRingServer server client core = L.ringAddr (Rpc.getSendRing client core server) ∧
        L.getSendRingServer server client core = L.ringAddr (Rpc.getRecvRing client core server) ∧
        L.getRecvRing client core server = L.ringAddr (Rpc.getRecvRing client core server)) :=
  message_parts_share_no_line ⟨40000, 12000⟩ 0 0 ⟨.request, 0, 1, 2⟩ ⟨.request, 0, 1, 3⟩ ⟨by decide, by decide, by decide⟩
    ⟨by decide, by decide, by decide⟩ 7 0 (by decide) (by decide) .data .hdr (by decide)

/-! ## The records of the sections -/

/-- `memcpy` of `sz` bytes. -/
def memcpy (mem : Nat → UInt8) (dst : Nat) (src : Nat → UInt8) (sz : Nat) : Nat → UInt8 :=
  fun a => if dst ≤ a ∧ a < dst + sz then src (a - dst) else mem a

/-- The bytes of an array of records. -/
def recordBytes (records : Nat → Nat → UInt8) (k : Nat) : UInt8 := records (k / sizeofParsec) (k % sizeofParsec)

/-- `bi_time_flush` writes the whole array `parsec_time_cache` from where the record of core 0 is. -/
def biTimeFlush (L : MemLayout) (node : Nat) (parsecTimeCache : Nat → Nat → UInt8) (mem : Nat → UInt8) : Nat → UInt8 :=
  memcpy mem (L.getParsecTime node 0) (recordBytes parsecTimeCache) (numCorePerNode * sizeofParsec)

/-- A record is as many records on as its core says. -/
theorem getParsecTime_eq (E : External) (globalMemory mallocArea : Nat) {node core : Nat} (valid : (Struct.parsecTime node core).Valid) :
    (initGlobalMemory E globalMemory mallocArea).getParsecTime node core =
      (initGlobalMemory E globalMemory mallocArea).getParsecTime node 0 + core * sizeofParsec := by
  have here := region_slot E globalMemory mallocArea _ valid
  have first := region_slot E globalMemory mallocArea (.parsecTime node 0) ⟨valid.1, by decide⟩
  simp only [MemLayout.region, Struct.index, Struct.kind, MemLayout.row, Row.slot, Region.mk.injEq] at here first
  rw [here.1, first.1, Nat.add_mul, Nat.add_mul]
  omega

/-- The records of a node are a row of their own. -/
theorem parsecTime_slot (E : External) (globalMemory mallocArea : Nat) {node core : Nat} (valid : node < numNodes) (inside : core < numCorePerNode) :
    (initGlobalMemory E globalMemory mallocArea).region E globalMemory (.parsecTime node core) =
      Row.slot ⟨(initGlobalMemory E globalMemory mallocArea).getParsecTime node 0, sizeofParsec, numCorePerNode⟩ core := by
  rw [MemLayout.region, getParsecTime_eq E globalMemory mallocArea ⟨valid, inside⟩, Row.slot]

/-- **`bi_time_flush` writes each core's record where the others read it**, and nothing else of the global memory. -/
theorem time_flush_records (E : External) (globalMemory mallocArea : Nat) (node : Nat) (valid : node < numNodes)
    (parsecTimeCache : Nat → Nat → UInt8) (mem : Nat → UInt8) :
    let L := initGlobalMemory E globalMemory mallocArea
    (∀ core < numCorePerNode, ∀ k < sizeofParsec,
      biTimeFlush L node parsecTimeCache mem (L.getParsecTime node core + k) = parsecTimeCache core k) ∧
    ∀ o, Struct.Valid o → (∀ core, o ≠ .parsecTime node core) → ∀ a, (L.region E globalMemory o).Has a →
      biTimeFlush L node parsecTimeCache mem a = mem a := by
  intro L
  constructor
  · intro core inside k byte
    have start : L.getParsecTime node core = L.getParsecTime node 0 + core * sizeofParsec :=
      getParsecTime_eq E globalMemory mallocArea ⟨valid, inside⟩
    have next : (core + 1) * sizeofParsec ≤ numCorePerNode * sizeofParsec := Nat.mul_le_mul_right sizeofParsec inside
    rw [Nat.succ_mul] at next
    have record : L.getParsecTime node 0 + core * sizeofParsec + k - L.getParsecTime node 0 = sizeofParsec * core + k := by
      rw [Nat.mul_comm, Nat.add_assoc, Nat.add_sub_cancel_left]
    rw [biTimeFlush, memcpy, start, if_pos (by omega), record, recordBytes, Nat.mul_add_div (by decide), Nat.mul_add_mod,
      Nat.div_eq_of_lt byte, Nat.mod_eq_of_lt byte, Nat.add_zero]
  · intro o validO other a inside
    rw [biTimeFlush, memcpy, if_neg]
    rintro ⟨low, high⟩
    -- an address of the copy is one of the record of some core
    have slot := Row.has_slot ⟨L.getParsecTime node 0, sizeofParsec, numCorePerNode⟩ (a := a)
    simp only [Row.stop] at slot
    obtain ⟨core, bound, record⟩ := slot low high
    rw [← parsecTime_slot E globalMemory mallocArea valid bound] at record
    have validR : (Struct.parsecTime node core).Valid := ⟨valid, bound⟩
    exact (region_apart E globalMemory mallocArea validO validR (other core)).not_both inside record

/-- The flush of the last node. -/
theorem time_flush_records_last : let L := initGlobalMemory ⟨40000, 12000⟩ 0 0
    (∀ core < numCorePerNode, ∀ k < sizeofParsec, biTimeFlush L 3 (fun core _ => core.toUInt8) (fun _ => 0) (L.getParsecTime 3 core + k) =
      core.toUInt8) ∧
    ∀ o, Struct.Valid o → (∀ core, o ≠ .parsecTime 3 core) → ∀ a, (L.region ⟨40000, 12000⟩ 0 o).Has a →
      biTimeFlush L 3 (fun core _ => core.toUInt8) (fun _ => 0) a = 0 :=
  time_flush_records ⟨40000, 12000⟩ 0 0 3 (by decide) (fun core _ => core.toUInt8) (fun _ => 0)

end BiProject.Layout
