import BiProject.BiMc.Assoc
import BiProject.Constant
import BiProject.Lib.Ring

/-!
# Items and their memory in `bi_mc`

The functions of `mc_code/bi_mc/items.c` and `mc_code/bi_mc/memcache.c` that set a key, evict a slab and
reclaim memory, on one node. Items are objects of the `ps_slab` allocator, which is not part of the
repository: it hands out objects that are not in use and is told when one is free. Here it is the set of
the objects that are handed out. The pages of its slabs come from a bitmap of the node's own memory. Items
that leave the table wait on a quiescence ring before they are returned. A function fails where an assertion
of the source does.
-/

namespace BiProject.BiMc
set_option autoImplicit false

/-! ## Constants -/

def quisNum : Nat := 11264
def keyLength : Nat := 16
def vLength : Nat := 32
def mcSlabObjSz : Nat := 94
def mcMemEvictThold : Nat := 99
def mcHashFlushPeroid : Nat := 90000000
def maxMcHashTime : Nat := 1054438 * 2
def slabInUse : Nat := 0
def totMemSz : Nat := 1024 * 1024 * 580
def pageSize : Nat := 4096

/-- `INIT_MEM_SZ`. -/
def initMemSz (numNode : Nat) : Nat := totMemSz / (numNode / 2)

/-- `sizeof(item)`, where an item with a key and a value of these lengths has `MC_SLAB_OBJ_SZ` bytes. -/
def sizeofItem : Nat := 36

/-- What the node's code takes from elsewhere: `NUM_NODE`, the node, the objects of each slab in the order
of their addresses, the slab of an object, the cores of slabs and of objects, the sizes of an object and of what
a slab wastes, the pages of a slab, the mark the allocator leaves in the header of an object that is returned, and
whether it gives the slab of this object back, with the objects that are then handed out. A slab is named by its
first page, counted from `trac.base`; `extentFind` is the search of `bitmap_extent_find_set` for pages in a row. -/
structure Ext where
  numNode : Nat
  curr : Nat
  slabObjs : Nat → List Addr
  slabOf : Addr → Nat
  slabCore : Nat → Nat
  coreid : Addr → Nat
  objTotSz : Nat
  fragmentation : Nat
  slabPages : Nat
  afterFree : Addr → Nat
  givesBack : (Addr → Bool) → Addr → Bool
  extentFind : (Nat → Bool) → Nat → Option Nat

/-- The node: the table, the headers' `tsc_free`, the quiescence ring, the objects that are handed out, the
counters `used`, `quiesce`, `alloc` and `free` of `struct mc_status`, its `target` and the pages that its bitmap
has free, and the flag `loading`. -/
structure Node where
  table : Table
  tscFree : Addr → Nat
  ring : Nat → Option Addr
  head : Nat
  tail : Nat
  out : Addr → Bool
  used : Nat
  quiesce : Nat
  alloc : Nat
  free : Nat
  target : Nat
  map : Nat → Bool
  loading : Bool

section
variable (X : Ext)

def Node.modify (σ : Node) (a : Addr) (f : Item → Item) : Node := { σ with table := σ.table.setItem a (f (σ.table.items a)) }

/-! ## The quiescence ring -/

def qscRingPeek (σ : Node) : Option Addr := σ.ring σ.head

def qscRingDequeue (σ : Node) : Option Addr × Node :=
  match σ.ring σ.head with
  | none => (none, σ)
  | some a => (some a, { σ with ring := Function.update σ.ring σ.head none, head := (σ.head + 1) % quisNum })

/-- `mem_quiesce` at the time `now`. -/
def memQuiesce (now : Nat) : Nat := (now + (u64 - (mcHashFlushPeroid + maxMcHashTime))) % u64

/-- `bitmap_set_contig`. -/
def bitmapSetContig (map : Nat → Bool) (off n : Nat) (v : Bool) : Nat → Bool := fun p => if off ≤ p ∧ p < off + n then v else map p

/-- `mem_free_pages` of the slab at the page `off`. -/
def memFreePages (σ : Node) (off : Nat) : Node :=
  { σ with
    map := bitmapSetContig σ.map off X.slabPages true
    free := σ.free + 1, used := (σ.used + (u64 - X.fragmentation % u64)) % u64 }

/-- `ps_slab_free_coreid_item`, which may give the slab back. -/
def psSlabFreeItem (σ : Node) (a : Addr) : Node :=
  let σ := { σ with out := Function.update σ.out a false, tscFree := Function.update σ.tscFree a (X.afterFree a) }
  if X.givesBack σ.out a then memFreePages X σ (X.slabOf a) else σ

/-- The loop of `mem_smr_reclaim`; it returns the bytes and the node. -/
def memSmrReclaimLoop (qsc : Nat) : Nat → Nat → Node → Option (Nat × Node)
  | 0, _, _ => none
  | fuel + 1, i, σ =>
    match qscRingPeek σ with
    | none => some (i, σ)
    | some a =>
      if σ.tscFree a > qsc then some (i, σ)
      else if X.coreid a = X.curr then
        let (_, σ) := qscRingDequeue σ
        memSmrReclaimLoop qsc fuel (i + X.objTotSz) (psSlabFreeItem X σ a)
      else none

def memSmrReclaim (σ : Node) (now : Nat) : Option (Nat × Node) :=
  match qscRingPeek σ with
  | none => some (0, σ)
  | some _ => do
    let (i, σ) ← memSmrReclaimLoop X (memQuiesce now) quisNum 0 σ
    return (i, { σ with
      used := (σ.used + (u64 - i % u64)) % u64, quiesce := (σ.quiesce + (u64 - i % u64)) % u64 })

/-- `mem_smr_reclaim` where it is called on a condition. -/
def reclaimIf (cond : Bool) (σ : Node) (now : Nat) : Option Node :=
  if cond then (memSmrReclaim X σ now).map Prod.snd else some σ

def qscRingEnqueue (σ : Node) (m : Addr) (now : Nat) : Option Node := do
  let σ ← reclaimIf X (σ.head = (σ.tail + 1) % quisNum) σ now
  guard (σ.head ≠ (σ.tail + 1) % quisNum)
  return { σ with ring := Function.update σ.ring σ.tail (some m), tail := (σ.tail + 1) % quisNum }

/-! ## Items -/

/-- The two readings of the clock that freeing an item may take. -/
structure Clock where
  tsc : Nat
  now : Nat

def parsecMemFree (σ : Node) (a : Addr) (clock : Clock) : Option Node := do
  let σ ← qscRingEnqueue X { σ with tscFree := Function.update σ.tscFree a clock.tsc } a clock.now
  return { σ with quiesce := (σ.quiesce + X.objTotSz) % u64 }

def itemFree (σ : Node) (a : Addr) (clock : Clock) : Option Node :=
  parsecMemFree X (σ.modify a fun it => { it with slabsClsid := 0 }) a clock

def doItemRemoveFree (σ : Node) (a : Addr) (clock : Clock) : Option Node := do
  guard ((σ.table.items a).slabbed = false)
  itemFree X σ a clock

def doItemLink (σ : Node) (a : Addr) (hv : Nat) : Option Node := do
  guard ((σ.table.items a).linked = false ∧ (σ.table.items a).slabbed = false)
  let σ := σ.modify a fun it => { it with linked := true }
  let ss ← assocInsert X.numNode σ.table X.curr a hv
  return { σ with table := σ.table.storeAll ss }

def doItemUnlink (fuel : Nat) (σ : Node) (a : Addr) (hv : Nat) (clock : Clock) : Option Node := do
  guard ((σ.table.items a).linked = true)
  let σ := σ.modify a fun it => { it with linked := false }
  let ss ← assocDelete X.numNode fuel σ.table X.curr (σ.table.items a).key (σ.table.items a).nkey hv
  doItemRemoveFree X { σ with table := σ.table.storeAll ss } a clock

def doItemReplace (fuel : Nat) (σ : Node) (old new : Addr) (hv : Nat) (clock : Clock) : Option Node := do
  guard ((σ.table.items old).linked = true)
  guard ((σ.table.items new).linked = false ∧ (σ.table.items new).slabbed = false)
  let σ := σ.modify new fun it => { it with linked := true }
  let ss ← assocReplace fuel σ.table old new hv
  let σ : Node := { σ with table := σ.table.storeAll ss }
  doItemRemoveFree X (σ.modify old fun it => { it with linked := false }) old clock

/-! ## Eviction -/

/-- The loop of `slab_evict`, with the objects still to come. -/
def slabEvictLoop (fuel : Nat) (clock : Nat → Clock) : Nat → List Addr → Node → Option Node
  | _, [], σ => some σ
  | i, a :: rest, σ =>
    if σ.tscFree a ≠ slabInUse then slabEvictLoop fuel clock (i + 1) rest σ
    else if mcHv2node X.numNode (σ.table.items a).hv = X.curr then do
      let σ ← doItemUnlink X fuel σ a (σ.table.items a).hv (clock i)
      slabEvictLoop fuel clock (i + 1) rest σ
    else none

/-- `s->nfree`. -/
def Node.nfree (σ : Node) (s : Nat) : Nat := (X.slabObjs s).countP fun a => !σ.out a

def slabEvict (fuel : Nat) (clock : Nat → Clock) (σ : Node) (s : Nat) : Option Node := do
  guard (X.slabCore s = X.curr)
  guard (σ.nfree X s = 0)
  slabEvictLoop X fuel clock 0 (X.slabObjs s) σ

/-- One of the two loops of `mc_mem_evict`, over the slabs of a list; it returns the pages so far. -/
def mcMemEvictLoop (fuel : Nat) (clock : Nat → Nat → Clock) (npages : Nat) : Nat → List Nat → Node → Option (Nat × Node)
  | i, [], σ => some (i, σ)
  | i, s :: rest, σ =>
    if i < npages then do
      let σ ← slabEvict X fuel (clock s) σ s
      mcMemEvictLoop fuel clock npages (i + X.slabPages) rest σ
    else some (i, σ)

def mcMemEvict (fuel : Nat) (clock : Nat → Nat → Clock) (npages : Nat) (el fl : List Nat) (σ : Node) : Option Node := do
  let (i, σ) ← mcMemEvictLoop X fuel clock npages 0 el σ
  let (_, σ) ← mcMemEvictLoop X fuel clock npages i fl σ
  return σ

/-- The test of `mc_alloc_pages`. -/
def Node.full (σ : Node) : Bool := σ.used * 100 % u64 > σ.target * mcMemEvictThold % u64

/-- The end of `mc_alloc_pages`: the pages that the bitmap has in a row, if there are any. -/
def takePages (σ : Node) : Option Nat × Node :=
  match X.extentFind σ.map X.slabPages with
  | some off => (some off, { σ with
      map := bitmapSetContig σ.map off X.slabPages false
      alloc := σ.alloc + 1, used := (σ.used + X.fragmentation) % u64 })
  | none => (none, σ)

/-- `mc_alloc_pages`, which the allocator calls when it has no object left: it returns the first page of a slab, or
NULL. `el` and `fl` are the slabs on the allocator's lists. -/
def mcAllocPages (fuel now : Nat) (clock : Nat → Nat → Clock) (el fl : List Nat) (σ : Node) : Option (Option Nat × Node) := do
  let σ ← reclaimIf X σ.full σ now
  if σ.full && σ.loading then return (none, σ)
  else
    let σ ← if σ.full then mcMemEvict X fuel clock 1 el fl σ else some σ
    return takePages X σ

/-! ## Setting a key -/

/-- `ps_slab_alloc_item`: it may ask for pages, any number of times, and returns an object that is not handed
out, with anything in its memory, or NULL. -/
inductive SlabAlloc : Node → Option Addr → Node → Prop where
  | pages {σ σ₁ σ₂ : Node} {r : Option Addr} {s : Option Nat} {fuel now : Nat} {clock : Nat → Nat → Clock}
      {el fl : List Nat} (refill : mcAllocPages X fuel now clock el fl σ = some (s, σ₁))
      (rest : SlabAlloc σ₁ r σ₂) : SlabAlloc σ r σ₂
  | object {σ : Node} {a : Addr} (it : Item) (free : σ.out a = false) :
      SlabAlloc σ (some a) { σ with
        table := σ.table.setItem a it, out := Function.update σ.out a true, tscFree := Function.update σ.tscFree a slabInUse }
  | none {σ : Node} : SlabAlloc σ none σ

/-- The text `snprintf` writes: the flags and the length of the value. -/
def suffixText (flags nbytes : Nat) : List UInt8 :=
  (" " ++ toString flags ++ " " ++ toString (nbytes - 2) ++ "\r\n").toUTF8.toList

/-- The fields `do_item_alloc` sets, past its assertions. -/
def fillItem (σ : Node) (a : Addr) (key : List UInt8) (nkey flags nbytes : Nat) : Option Node := do
  guard ((σ.table.items a).slabsClsid = 0)
  return σ.modify a fun it => { it with
    hNext := none, slabsClsid := 0, linked := false, slabbed := false, nkey := nkey, nbytes := nbytes
    nsuffix := (suffixText flags nbytes).length, key := key.take nkey, suffix := suffixText flags nbytes }

/-- `parsec_mem_alloc`. -/
def ParsecMemAlloc (σ : Node) (size : Nat) (r : Option Addr) (σ' : Node) : Prop :=
  size = mcSlabObjSz ∧ SlabAlloc X { σ with used := (σ.used + X.objTotSz) % u64 } r σ'

/-- `do_item_alloc`: a second try where the first returns NULL. -/
inductive DoItemAlloc (σ : Node) (key : List UInt8) (nkey flags nbytes : Nat) : Option Addr → Node → Prop where
  | first {a : Addr} {σ₁ σ' : Node}
      (alloc : ParsecMemAlloc X σ (sizeofItem + (nkey + 1) + (suffixText flags nbytes).length + nbytes) (some a) σ₁)
      (fill : fillItem σ₁ a key nkey flags nbytes = some σ') : DoItemAlloc σ key nkey flags nbytes (some a) σ'
  | second {a : Addr} {σ₁ σ₂ σ' : Node}
      (alloc : ParsecMemAlloc X σ (sizeofItem + (nkey + 1) + (suffixText flags nbytes).length + nbytes) none σ₁)
      (again : ParsecMemAlloc X σ₁ (sizeofItem + (nkey + 1) + (suffixText flags nbytes).length + nbytes) (some a) σ₂)
      (fill : fillItem σ₂ a key nkey flags nbytes = some σ') : DoItemAlloc σ key nkey flags nbytes (some a) σ'
  | fails {σ₁ σ₂ : Node}
      (alloc : ParsecMemAlloc X σ (sizeofItem + (nkey + 1) + (suffixText flags nbytes).length + nbytes) none σ₁)
      (again : ParsecMemAlloc X σ₁ (sizeofItem + (nkey + 1) + (suffixText flags nbytes).length + nbytes) none σ₂) :
      DoItemAlloc σ key nkey flags nbytes none σ₂

/-- `mc_set_key_rcv` once it has its item. -/
def mcSetItem (fuel : Nat) (σ : Node) (it : Addr) (key : List UInt8) (nkey : Nat) (data : List UInt8) (nbytes hv : Nat)
    (clock : Clock) : Option Node := do
  let σ := σ.modify it fun i => { i with data := data.take nbytes, hv := hv }
  let old ← assocFind fuel σ.table key nkey hv
  match old with
  | some old => doItemReplace X fuel σ old it hv clock
  | none => doItemLink X σ it hv

/-- `mc_set_key_rcv`, which returns 0 with the item set, or -1. -/
inductive McSetKeyRcv (σ : Node) (key : List UInt8) (nkey : Nat) (data : List UInt8) (nbytes hv : Nat) :
    Option Addr → Node → Prop where
  | ok {it : Addr} {σ₁ σ' : Node} {fuel : Nat} {clock : Clock} (alloc : DoItemAlloc X σ key nkey 0 (nbytes + 2) (some it) σ₁)
      (set : mcSetItem X fuel σ₁ it key nkey data nbytes hv clock = some σ') : McSetKeyRcv σ key nkey data nbytes hv (some it) σ'
  | error {σ' : Node} (alloc : DoItemAlloc X σ key nkey 0 (nbytes + 2) none σ') :
      McSetKeyRcv σ key nkey data nbytes hv none σ'

/-! ## Runs -/

/-- One call, at any readings of the clock. The hash value is a function of the key. -/
inductive NodeStep (hash : Key → Nat) (σ : Node) : Node → Prop where
  | set {key data : List UInt8} {r : Option Addr} {σ' : Node} (keyLen : key.length = keyLength) (dataLen : data.length = vLength)
      (mine : mcHv2node X.numNode (hash (keyLength, key)) = X.curr)
      (run : McSetKeyRcv X σ key keyLength data vLength (hash (keyLength, key)) r σ') : NodeStep hash σ σ'
  | evict {s fuel : Nat} {clock : Nat → Clock} {σ' : Node} (run : slabEvict X fuel clock σ s = some σ') : NodeStep hash σ σ'
  | reclaim {now i : Nat} {σ' : Node} (run : memSmrReclaim X σ now = some (i, σ')) : NodeStep hash σ σ'
  -- `mc_disconnect` with `MC_LOADING`
  | loaded : NodeStep hash σ { σ with loading := false }

/-- Runs from an empty table, with no object handed out and an empty ring. -/
inductive NodeRun (hash : Key → Nat) : Node → Prop where
  | init (items : Addr → Item) (tscFree : Addr → Nat) (used target : Nat) (map : Nat → Bool) (loading : Bool) :
      NodeRun hash ⟨⟨fun _ => none, items⟩, tscFree, fun _ => none, 0, 0, fun _ => false, used, 0, 0, 0, target, map, loading⟩
  | step {σ σ' : Node} (before : NodeRun hash σ) (next : NodeStep X hash σ σ') : NodeRun hash σ'

end

end BiProject.BiMc
