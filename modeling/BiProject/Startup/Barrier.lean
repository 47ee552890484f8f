import BiProject.Lib.WriteBack
import Mathlib.Data.List.Basic

/-!
# The start of the nodes

`bi_global_init_master`, `bi_global_init_slave` and the start of `bi_server_run` of `libs/bi/bi_init.c`, with `bi_set_barrier`
and `bi_wait_barrier` of `libs/mem/mem_mgr.c`, on caches that are not coherent. The master fills the mapping and opens
`g_bar`; each node then raises its entry of `bars` and waits for the master's. Each load, store, write-back and flush of a
line is a step. In between the hardware may load any line to any cache, write back what was stored to and drop it.
-/

namespace BiProject.Startup
set_option autoImplicit false
open BiProject.Lib

/-- The lines of the mapping: `g_bar`, the entries of `bars`, and those that only `init_global_memory` writes, such as the
tables of `struct Mem_layout`. -/
inductive LineId where
  | gBar
  | bar (nd : Nat)
  | table (i : Nat)
deriving DecidableEq

/-- `get_active_node_num()`, the lines of the mapping, and what `init_global_memory` puts in the tables. -/
structure Config where
  ntot : Nat
  lines : List LineId
  tables : Nat → Nat
  gBar : .gBar ∈ lines
  bars : ∀ nd < ntot, .bar nd ∈ lines

/-- What `init_global_memory` leaves in a line. -/
def Config.content (C : Config) : LineId → Nat
  | .gBar => 0
  | .bar _ => 0
  | .table i => C.tables i

inductive Pc where
  -- `bi_global_init_master`
  | store0 | wb0 | memset (rest : List LineId) | fill (rest : List LineId) | wbAll (rest : List LineId) | store1 | wb1
  -- `bi_global_init_slave`
  | gFlush | gLoad | flushAll (rest : List LineId)
  -- `bi_server_run` of node 0, with `nd`
  | waitFlush (nd : Nat) | waitLoad (nd : Nat) | bar0Store | bar0Wb
  -- `bi_server_run` of another node
  | barStore | barWb | bar0Flush | bar0Load
  -- its loop
  | loop
deriving DecidableEq

structure Sys where
  line : LineId → Line Nat Nat
  pc : Nat → Pc

/-- A node does something to a line and goes on. -/
def Sys.on (σ : Sys) (n : Nat) (l : LineId) (f : Line Nat Nat → Line Nat Nat) (pc : Pc) : Sys where
  line := Function.update σ.line l (f (σ.line l))
  pc := Function.update σ.pc n pc

def Sys.jump (σ : Sys) (n : Nat) (pc : Pc) : Sys := { σ with pc := Function.update σ.pc n pc }

/-- One step of a node. -/
def Sys.go (C : Config) (σ : Sys) (n : Nat) : Option Sys :=
  match σ.pc n with
  | .store0 => some (σ.on n .gBar (fun l => l.store n fun _ => 0) .wb0)
  | .wb0 => some (σ.on n .gBar (fun l => l.clwb n) (.memset C.lines))
  | .memset (l :: rest) => some (σ.on n l (fun l => l.store n fun _ => 0) (.memset rest))
  | .memset [] => some (σ.jump n (.fill C.lines))
  | .fill (l :: rest) => some (σ.on n l (fun line => line.store n fun _ => C.content l) (.fill rest))
  | .fill [] => some (σ.jump n (.wbAll C.lines))
  | .wbAll (l :: rest) => some (σ.on n l (fun l => l.clwb n) (.wbAll rest))
  | .wbAll [] => some (σ.jump n .store1)
  | .store1 => some (σ.on n .gBar (fun l => l.store n fun _ => 1) .wb1)
  | .wb1 => some (σ.on n .gBar (fun l => l.clwb n) (.waitFlush 1))
  | .gFlush => some (σ.on n .gBar (fun l => l.clflush n) .gLoad)
  | .gLoad =>
    some (σ.on n .gBar (fun l => l.load n) (if (σ.line .gBar).view n = 1 then .flushAll C.lines else .gFlush))
  | .flushAll (l :: rest) => some (σ.on n l (fun l => l.clflush n) (.flushAll rest))
  | .flushAll [] => some (σ.jump n .barStore)
  | .waitFlush nd =>
    if nd < C.ntot then some (σ.on n (.bar nd) (fun l => l.clflush n) (.waitLoad nd))
    else some (σ.jump n .bar0Store)
  | .waitLoad nd =>
    some (σ.on n (.bar nd) (fun l => l.load n) (if (σ.line (.bar nd)).view n = 0 then .waitFlush nd else .waitFlush (nd + 1)))
  | .bar0Store => some (σ.on n (.bar 0) (fun l => l.store n fun _ => 1) .bar0Wb)
  | .bar0Wb => some (σ.on n (.bar 0) (fun l => l.clwb n) .loop)
  | .barStore => some (σ.on n (.bar n) (fun l => l.store n fun _ => 1) .barWb)
  | .barWb => some (σ.on n (.bar n) (fun l => l.clwb n) .bar0Flush)
  | .bar0Flush => some (σ.on n (.bar 0) (fun l => l.clflush n) .bar0Load)
  | .bar0Load => some (σ.on n (.bar 0) (fun l => l.load n) (if (σ.line (.bar 0)).view n = 0 then .bar0Flush else .loop))
  | .loop => none

/-- A node goes on, or the hardware loads a line to a cache, writes it back or drops it. -/
inductive Act where
  | go (n : Nat)
  | prefetch (n : Nat) (l : LineId)
  | writeBack (n : Nat) (l : LineId)
  | evict (n : Nat) (l : LineId)

/-- The hardware does something to a line. -/
def Sys.touch (σ : Sys) (l : LineId) (f : Line Nat Nat → Line Nat Nat) : Sys := { σ with line := Function.update σ.line l (f (σ.line l)) }

def Sys.step (C : Config) (σ : Sys) : Act → Option Sys
  | .go n => if n < C.ntot then σ.go C n else none
  | .prefetch n l => some (σ.touch l fun line => line.load n)
  | .writeBack n l => some (σ.touch l fun line => line.writeBack n)
  | .evict n l => some (σ.touch l fun line => line.clflush n)

/-- The file of the mapping with what an earlier run left in it. -/
def Sys.init (old : LineId → Nat) : Sys where
  line := fun l => Line.fresh (old l)
  pc := fun n => if n = 0 then .store0 else .gFlush

/-- The states of the runs. -/
inductive Sys.Run (C : Config) (old : LineId → Nat) : Sys → Prop where
  | init : Run C old (.init old)
  | step {σ σ' : Sys} {a : Act} : Run C old σ → σ.step C a = some σ' → Run C old σ'

end BiProject.Startup
