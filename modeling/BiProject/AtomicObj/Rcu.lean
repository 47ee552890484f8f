import BiProject.Lib.Regions
import Mathlib.Logic.Function.Basic

/-!
# Objects that are read without a lock

`atomic_obj/atomic_obj_rcu.c`: a reader copies an object's block between `rcu_read_lock` and `rcu_read_unlock`; a writer fills a
new block, puts it in place under the object's lock and keeps the old one in `local_buf`. When that is full it waits with
`synchronize_rcu` and frees what it has kept. Each load and store is a step, in any interleaving of the cores. `bi_malloc` gives
any block that is apart from those in use. `synchronize_rcu` returns when each reader that was in its section at the call has
left it.
-/

namespace BiProject.AtomicObj
set_option autoImplicit false
open BiProject.Lib.Regions

def rcuFreeBufSz : Nat := 1024

/-- The size of the objects, how many there are, and how many cores. -/
structure Config where
  sz : Nat
  num : Nat
  cores : Nat
  sz_pos : 0 < sz

def Config.block (C : Config) (a : Nat) : Region := ⟨a, C.sz⟩

inductive Pc where
  | idle
  -- `atomic_obj_read`, with how many values the object had before the current one when the section was entered
  | rdLock (id since : Nat) | rdCopy (id since src : Nat) (got : List UInt8)
  -- `atomic_obj_write`
  | wrLock (id new : Nat) | wrLoad (id new : Nat) | wrCopy (id new old k : Nat) | wrUnlock (id old : Nat)
  -- `__rcu_free`, in `synchronize_rcu` with the readers it waits for, and in its loop
  | rcuFree (old : Nat) | sync (old : Nat) (waits : Nat → Bool) | freeing (old i : Nat)

/-- A core is between `rcu_read_lock` and `rcu_read_unlock`. -/
def Pc.inSection : Pc → Bool
  | .rdLock _ _ | .rdCopy _ _ _ _ => true
  | _ => false

/-- A reader has left its section. -/
def Pc.left (r : Nat) : Pc → Pc
  | .sync old waits => .sync old (Function.update waits r false)
  | pc => pc

/-- A read that has returned: what was copied, and how many values the object had before the current one at its begin and at its end. -/
structure Read where
  id : Nat
  since : Nat
  upto : Nat
  got : List UInt8

/-- `to->data` of the objects, the memory, the blocks in use, the locks, and `local_buf` of each core; with the values that the objects
had so far and the reads that have returned. -/
structure Sys where
  data : Nat → Nat
  mem : Nat → UInt8
  live : Nat → Bool
  lock : Nat → Option Nat
  pc : Nat → Pc
  buf : Nat → List Nat
  values : Nat → List (List UInt8)
  reads : List Read

/-- The bytes of a block. -/
def Sys.bytes (C : Config) (σ : Sys) (a : Nat) : List UInt8 := (List.range C.sz).map fun k => σ.mem (a + k)

def Sys.goto (σ : Sys) (t : Nat) (pc : Pc) : Sys := { σ with pc := Function.update σ.pc t pc }

/-- One step of a core. A writer copies from a buffer that other cores write to as well: any byte. -/
def Sys.go (C : Config) (σ : Sys) (t : Nat) (byte : UInt8) : Option Sys :=
  match σ.pc t with
  | .idle => none
  | .rdLock id since => some (σ.goto t (.rdCopy id since (σ.data id) []))
  | .rdCopy id since src got =>
    if got.length < C.sz then some (σ.goto t (.rdCopy id since src (got ++ [σ.mem (src + got.length)])))
    else some { σ with
      pc := Function.update (fun u => (σ.pc u).left t) t .idle
      reads := σ.reads ++ [⟨id, since, (σ.values id).length - 1, got⟩] }
  | .wrLock id new => if σ.lock id = none then some { σ.goto t (.wrLoad id new) with lock := Function.update σ.lock id (some t) } else none
  | .wrLoad id new => some (σ.goto t (.wrCopy id new (σ.data id) 0))
  | .wrCopy id new old k =>
    if k < C.sz then some { σ.goto t (.wrCopy id new old (k + 1)) with mem := Function.update σ.mem (new + k) byte }
    else some { σ.goto t (.wrUnlock id old) with
      data := Function.update σ.data id new
      values := Function.update σ.values id (σ.values id ++ [σ.bytes C new]) }
  | .wrUnlock id old => some { σ.goto t (.rcuFree old) with lock := Function.update σ.lock id none }
  | .rcuFree old =>
    if (σ.buf t).length = rcuFreeBufSz then some (σ.goto t (.sync old fun u => (σ.pc u).inSection))
    else some { σ.goto t .idle with buf := Function.update σ.buf t (σ.buf t ++ [old]) }
  | .sync old waits => if (List.range C.cores).all fun u => !waits u then some (σ.goto t (.freeing old 0)) else none
  | .freeing old i =>
    if i < rcuFreeBufSz then some { σ.goto t (.freeing old (i + 1)) with live := Function.update σ.live ((σ.buf t).getD i 0) false }
    else some { σ.goto t .idle with buf := Function.update σ.buf t [old] }

/-- A core reads or writes an object, with the block that `bi_malloc` gives it, or goes on. -/
inductive Act where
  | read (t id : Nat)
  | write (t id new : Nat)
  | go (t : Nat) (byte : UInt8)

/-- One step. -/
inductive Step (C : Config) (σ : Sys) : Act → Sys → Prop where
  | read {t id : Nat} (core : t < C.cores) (idle : σ.pc t = .idle) (object : id < C.num) :
      Step C σ (.read t id) (σ.goto t (.rdLock id ((σ.values id).length - 1)))
  | write {t id new : Nat} (core : t < C.cores) (idle : σ.pc t = .idle) (object : id < C.num)
      (apart : ∀ a, σ.live a = true → (C.block new).Apart (C.block a)) :
      Step C σ (.write t id new) { σ.goto t (.wrLock id new) with live := Function.update σ.live new true }
  | go {t : Nat} {byte : UInt8} {σ' : Sys} (core : t < C.cores) (run : σ.go C t byte = some σ') : Step C σ (.go t byte) σ'

/-- After `atomic_obj_init`: each object has a block of its own. -/
structure Sys.Fresh (C : Config) (σ : Sys) : Prop where
  apart : ∀ id < C.num, ∀ id' < C.num, id ≠ id' → (C.block (σ.data id)).Apart (C.block (σ.data id'))
  live : ∀ a, σ.live a = true ↔ ∃ id < C.num, σ.data id = a
  lock : ∀ id, σ.lock id = none
  pc : ∀ t, σ.pc t = .idle
  buf : ∀ t, σ.buf t = []
  values : ∀ id, σ.values id = [σ.bytes C (σ.data id)]
  reads : σ.reads = []

inductive Run (C : Config) : Sys → Prop where
  | init {σ : Sys} (fresh : σ.Fresh C) : Run C σ
  | step {σ σ' : Sys} {a : Act} (before : Run C σ) (next : Step C σ a σ') : Run C σ'

end BiProject.AtomicObj
