import BiProject.Lib.Chains
import Mathlib.Algebra.Group.Nat.Defs
import Mathlib.Data.Option.Basic

/-!
# Items and their hash table in `mp_mc` and `2pc_mc`

`servers/assoc.c` and `servers/items.c`, which the two servers have in common, and the functions of their
`servers/server.c` that set and get a key. An item keeps its key, a printed suffix and its value in the bytes behind
its header, at places that its own fields tell. Items are objects of one slab. Loops along a chain run on fuel, and
a function fails where it runs out of it or an assertion fails.
-/

namespace BiProject.McServer
set_option autoImplicit false
open BiProject.Lib.Chains

/-! ## Constants -/

def keyLength : Nat := 16
def vLength : Nat := 32
def mcSlabObjSz : Nat := 94
def hashpower : Nat := 22
/-- `hashsize` and `hashmask` of `HASHPOWER_DEFAULT`. -/
def hashsize : Nat := 2 ^ hashpower
def hashmask : Nat := hashsize - 1

/-- `sizeof(item)`, with pointers of 32 bits. -/
def sizeofItem : Nat := 36

/-! ## Items -/

/-- The objects of the slab. -/
abbrev Addr := Nat

/-- The fields of `item` that are used, the flags `ITEM_LINKED`, `ITEM_CAS` and `ITEM_SLABBED` one by one, and the
bytes behind them. -/
structure Item where
  hNext : Option Addr
  hv : Nat
  nbytes : Nat
  nsuffix : Nat
  linked : Bool
  cas : Bool
  slabbed : Bool
  slabsClsid : Nat
  nkey : Nat
  bytes : Nat → UInt8

/-- An object in memory that is zero. -/
def Item.zero : Item := ⟨none, 0, 0, 0, false, false, false, 0, 0, fun _ => 0⟩

def Item.casSize (it : Item) : Nat := if it.cas then 8 else 0

/-- `ITEM_key`, `ITEM_suffix` and `ITEM_data`, from the first byte behind the fields on. -/
def Item.keyOff (it : Item) : Nat := it.casSize
def Item.suffixOff (it : Item) : Nat := it.nkey + 1 + it.casSize
def Item.dataOff (it : Item) : Nat := it.nkey + 1 + it.nsuffix + it.casSize

def Item.load (it : Item) (off n : Nat) : List UInt8 := (List.range n).map fun i => it.bytes (off + i)

/-- `memcpy` into the bytes of an item. -/
def Item.memcpy (it : Item) (off : Nat) (src : List UInt8) : Item :=
  { it with bytes := fun i => if off ≤ i ∧ i < off + src.length then src.getD (i - off) 0 else it.bytes i }

/-- What `%d` prints. -/
def decimal (n : Nat) : List UInt8 := (Nat.toDigits 10 n).map fun c => c.toNat.toUInt8

/-- The text that `item_make_header` prints, `" %d %d\r\n"`: the flags and the length of the value. -/
def suffixText (flags nbytes : Nat) : List UInt8 := [32] ++ decimal flags ++ [32] ++ decimal (nbytes - 2) ++ [13, 10]

/-- What the server keeps: the bucket heads, the items, the free objects of the slab in the order they are handed
out, the variables `first` of `mc_alloc_pages` and `loading`, and `status.evict`. -/
structure Server where
  heads : Nat → Option Addr
  items : Addr → Item
  freelist : List Addr
  first : Bool
  loading : Bool
  evict : Nat

/-- The bucket of a hash value. -/
def bucketOf (hv : Nat) : Nat := hv &&& hashmask

/-- What an `item **` points to holds. -/
def Server.link (σ : Server) : Cell Nat Addr → Option Addr
  | .head b => σ.heads b
  | .next a => (σ.items a).hNext

def Server.setItem (σ : Server) (a : Addr) (it : Item) : Server := { σ with items := Function.update σ.items a it }

def Server.modify (σ : Server) (a : Addr) (f : Item → Item) : Server := σ.setItem a (f (σ.items a))

/-- A store through an `item **`. -/
def Server.store (σ : Server) (c : Cell Nat Addr) (v : Option Addr) : Server :=
  match c with
  | .head b => { σ with heads := Function.update σ.heads b v }
  | .next a => σ.modify a fun it => { it with hNext := v }

/-! ## `assoc.c` -/

/-- The comparison of lengths and bytes of two keys. -/
def Item.matches (it : Item) (key : List UInt8) (nkey : Nat) : Bool :=
  nkey == it.nkey && key.take nkey == it.load it.keyOff nkey

def assocFindLoop (σ : Server) (key : List UInt8) (nkey : Nat) : Nat → Option Addr → Option (Option Addr)
  | 0, _ => none
  | _ + 1, none => some none
  | fuel + 1, some a =>
    if (σ.items a).matches key nkey then some (some a) else assocFindLoop σ key nkey fuel (σ.items a).hNext

def assocFind (fuel : Nat) (σ : Server) (key : List UInt8) (nkey hv : Nat) : Option (Option Addr) :=
  assocFindLoop σ key nkey fuel (σ.heads (bucketOf hv))

def hashitemBeforeLoop (σ : Server) (key : List UInt8) (nkey : Nat) : Nat → Cell Nat Addr → Option (Cell Nat Addr)
  | 0, _ => none
  | fuel + 1, pos =>
    match σ.link pos with
    | none => some pos
    | some a => if (σ.items a).matches key nkey then some pos else hashitemBeforeLoop σ key nkey fuel (.next a)

def assocInsert (σ : Server) (it : Addr) (hv : Nat) : Server :=
  let σ := σ.modify it fun i => { i with hNext := σ.heads (bucketOf hv) }
  σ.store (.head (bucketOf hv)) (some it)

def assocDelete (fuel : Nat) (σ : Server) (key : List UInt8) (nkey hv : Nat) : Option Server := do
  let before ← hashitemBeforeLoop σ key nkey fuel (.head (bucketOf hv))
  let a ← σ.link before
  return σ.store before (σ.items a).hNext

/-! ## `items.c` -/

/-- The fields `do_item_alloc` sets in the object it got. -/
def itemInit (it : Item) (key : List UInt8) (nkey flags nbytes : Nat) : Item :=
  let it := { it with
    hNext := none, slabsClsid := 0, linked := false, cas := false, slabbed := false, nkey := nkey % 256, nbytes := nbytes }
  let it := it.memcpy it.keyOff (key.take nkey)
  let it := it.memcpy it.suffixOff (suffixText flags nbytes)
  { it with nsuffix := (suffixText flags nbytes).length % 256 }

/-- `do_item_alloc`, when the slab has handed out `a`. -/
def doItemAlloc (σ : Server) (a : Addr) (key : List UInt8) (nkey flags nbytes : Nat) : Option Server := do
  guard ((σ.items a).slabsClsid = 0)
  return σ.modify a fun it => itemInit it key nkey flags nbytes

/-- `ps_slab_free_item` of the slab of `nobjs` objects: an object that is free is not freed again, and the slab that
has got back all of them goes to `mc_free_pages`, which fails. -/
def psSlabFreeItem (nobjs : Nat) (σ : Server) (a : Addr) : Option Server := do
  guard (a ∉ σ.freelist)
  guard (σ.freelist.length + 1 ≠ nobjs)
  return { σ with freelist := a :: σ.freelist }

def itemFree (nobjs : Nat) (σ : Server) (a : Addr) : Option Server :=
  psSlabFreeItem nobjs (σ.modify a fun it => { it with slabsClsid := 0 }) a

def doItemLink (σ : Server) (a : Addr) (hv : Nat) : Option Server := do
  guard ((σ.items a).linked = false ∧ (σ.items a).slabbed = false)
  return assocInsert (σ.modify a fun it => { it with linked := true }) a hv

def doItemRemoveFree (nobjs : Nat) (σ : Server) (a : Addr) : Option Server := do
  guard ((σ.items a).slabbed = false)
  itemFree nobjs σ a

/-- `do_item_unlink`, up to `do_item_remove_free`. -/
def unlinkTable (fuel : Nat) (σ : Server) (a : Addr) (hv : Nat) : Option Server := do
  guard ((σ.items a).linked = true)
  let σ := σ.modify a fun it => { it with linked := false }
  assocDelete fuel σ ((σ.items a).load (σ.items a).keyOff (σ.items a).nkey) (σ.items a).nkey hv

def doItemUnlink (nobjs fuel : Nat) (σ : Server) (a : Addr) (hv : Nat) : Option Server := do
  let σ ← unlinkTable fuel σ a hv
  doItemRemoveFree nobjs σ a

/-! ## `server.c` -/

/-- `mc_set_key_ext` on an item that is there. -/
def setInPlace (σ : Server) (a : Addr) (data : List UInt8) (nbytes : Nat) : Server :=
  σ.modify a fun it => it.memcpy it.dataOff (data.take nbytes)

/-- `mc_set_key_ext` on an object that the slab has handed out. -/
def setFresh (σ : Server) (a : Addr) (key : List UInt8) (nkey : Nat) (data : List UInt8) (nbytes hv : Nat) : Option Server := do
  let σ ← doItemAlloc σ a key nkey 0 (nbytes + 2)
  let σ := σ.modify a fun it => it.memcpy it.dataOff (data.take nbytes)
  let σ := σ.modify a fun it => { it with hv := hv }
  doItemLink σ a hv

/-- `mc_set_key_ext`, with what `ps_slab_alloc_item` and its second try do, and what is done where they return
NULL. It returns whether the key was set. -/
def setKey (alloc : Server → Option (Option Addr × Server)) (onNull : Server → Option (Bool × Server)) (fuel : Nat) (σ : Server)
    (key : List UInt8) (nkey : Nat) (data : List UInt8) (nbytes hv : Nat) : Option (Bool × Server) := do
  let old ← assocFind fuel σ key nkey hv
  match old with
  | some a => return (true, setInPlace σ a data nbytes)
  | none =>
    let (r, σ) ← alloc σ
    match r with
    | none => onNull σ
    | some a =>
      let σ ← setFresh σ a key nkey data nbytes hv
      return (true, σ)

/-- `mc_set_key_ext` of `mp_mc` returns -1 without memory, that of `2pc_mc` does not return then. -/
def mcSetKeyExt (alloc : Server → Option (Option Addr × Server)) := setKey alloc fun σ => some (false, σ)
def mcSetKeyExt2pc (alloc : Server → Option (Option Addr × Server)) := setKey alloc fun _ => none

/-- `mc_get_key_ext`; with `NO_REPLACEMENT` it does nothing to the item. -/
def mcGetKeyExt (fuel : Nat) (σ : Server) (key : List UInt8) (nkey hv : Nat) : Option (Option Addr) :=
  assocFind fuel σ key nkey hv

end BiProject.McServer
