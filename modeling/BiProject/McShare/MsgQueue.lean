import Mathlib.Data.List.Basic
import Mathlib.Logic.Function.Basic
import Mathlib.Order.Nat

/-!
# The message queue of the memcached variants

`msg_enqueue` and `msg_dequeue` of `mc_code/mp_mc/share/rpc.h`, which `mc_code/2pc_mc` has too, with the loads
and stores of `share/util.h`. One node enqueues and another dequeues, on caches that are not coherent: what a
node stores is seen by the other when its line is written back, by the node or by the hardware on its own, and
a plain load of the other side's index may return an old value, though none older than the last one seen.
-/

namespace BiProject.McShare
set_option autoImplicit false

def msgNum : Nat := 8

/-- `struct msg_meta`. -/
structure MsgMeta where
  size : Nat
  off : Nat

inductive EnqPc where
  | idle | load | reload | size | off | wbEntry | tail | wbTail
  deriving DecidableEq

inductive DeqPc where
  | idle | load | reload | flush | read | head | wbHead
  deriving DecidableEq

/-- The node that enqueues: `q->tail` and the ring as its cache has them, whether `q->tail` is still to be
written back, which value of `q->head` it saw last, and the call in progress, with what it had when the call
began. -/
structure Producer where
  tail : Nat
  ring : Nat → MsgMeta
  dirty : Bool
  seen : Nat
  pc : EnqPc
  entry : MsgMeta
  began : Nat × (Nat → MsgMeta)

/-- The node that dequeues: `q->head` and the lines of the ring that its cache has. -/
structure Consumer where
  head : Nat
  lines : Nat → Option MsgMeta
  dirty : Bool
  seen : Nat
  pc : DeqPc
  entry : MsgMeta
  began : Nat × (Nat → Option MsgMeta)

/-- The queue: the ring in memory, the values that `q->head` and `q->tail` have had there, and both nodes; with
the entries that were enqueued, once `q->tail` counts them, and dequeued, once `q->head` does. -/
structure Queue where
  ring : Nat → MsgMeta
  heads : List Nat
  tails : List Nat
  prod : Producer
  cons : Consumer
  enqueued : List MsgMeta
  dequeued : List MsgMeta

/-- How many entries are pending in memory. -/
def Queue.pending (σ : Queue) : Nat := σ.tails.length - σ.heads.length

/-- A value that an index has had, at or after the one at `seen`. -/
def SeenAfter (values : List Nat) (seen j v : Nat) : Prop := seen ≤ j ∧ values[j]? = some v

/-- The step by which a store to an index reaches memory. -/
def Producer.flushed (p : Producer) (tails : List Nat) : List Nat := if p.dirty then tails ++ [p.tail] else tails
def Consumer.flushed (c : Consumer) (heads : List Nat) : List Nat := if c.dirty then heads ++ [c.head] else heads

section
variable (σ : Queue)

/-- `delta`. -/
def Queue.delta : Nat := (σ.prod.tail + 1) % msgNum

def Queue.toProd (f : Producer → Producer) : Queue := { σ with prod := f σ.prod }
def Queue.toCons (f : Consumer → Consumer) : Queue := { σ with cons := f σ.cons }

/-- What a call of `msg_enqueue` does, one step at a time; the Boolean says that it returns -1. -/
inductive EnqStep : Queue → Bool → Prop where
  | call (entry : MsgMeta) (idle : σ.prod.pc = .idle) :
      EnqStep (σ.toProd fun p => { p with pc := .load, entry := entry, began := (p.tail, p.ring) }) false
  | loadFull {j : Nat} (here : σ.prod.pc = .load) (load : SeenAfter σ.heads σ.prod.seen j σ.delta) :
      EnqStep (σ.toProd fun p => { p with seen := j, pc := .reload }) false
  | loadRoom {j v : Nat} (here : σ.prod.pc = .load) (load : SeenAfter σ.heads σ.prod.seen j v) (room : σ.delta ≠ v) :
      EnqStep (σ.toProd fun p => { p with seen := j, pc := .size }) false
  | reloadFull (here : σ.prod.pc = .reload) (load : σ.heads.getLast? = some σ.delta) :
      EnqStep (σ.toProd fun p => { p with seen := σ.heads.length - 1, pc := .idle }) true
  | reloadRoom {v : Nat} (here : σ.prod.pc = .reload) (load : σ.heads.getLast? = some v) (room : σ.delta ≠ v) :
      EnqStep (σ.toProd fun p => { p with seen := σ.heads.length - 1, pc := .size }) false
  | size (here : σ.prod.pc = .size) :
      EnqStep (σ.toProd fun p => { p with
        ring := Function.update p.ring p.tail { p.ring p.tail with size := p.entry.size }, pc := .off }) false
  | off (here : σ.prod.pc = .off) :
      EnqStep (σ.toProd fun p => { p with
        ring := Function.update p.ring p.tail { p.ring p.tail with off := p.entry.off }, pc := .wbEntry }) false
  | wbEntry (here : σ.prod.pc = .wbEntry) :
      EnqStep { σ.toProd fun p => { p with pc := .tail } with
        ring := Function.update σ.ring σ.prod.tail (σ.prod.ring σ.prod.tail) } false
  | tail (here : σ.prod.pc = .tail) :
      EnqStep { σ.toProd fun p => { p with tail := σ.delta, dirty := true, pc := .wbTail } with
        enqueued := σ.enqueued ++ [σ.prod.entry] } false
  | wbTail (here : σ.prod.pc = .wbTail) :
      EnqStep { σ.toProd fun p => { p with dirty := false, pc := .idle } with tails := σ.prod.flushed σ.tails } false

/-- What a call of `msg_dequeue` does; the Boolean says that it returns -1. -/
inductive DeqStep : Queue → Bool → Prop where
  | call (idle : σ.cons.pc = .idle) : DeqStep (σ.toCons fun c => { c with pc := .load, began := (c.head, c.lines) }) false
  | loadEmpty {j : Nat} (here : σ.cons.pc = .load) (load : SeenAfter σ.tails σ.cons.seen j σ.cons.head) :
      DeqStep (σ.toCons fun c => { c with seen := j, pc := .reload }) false
  | loadSome {j v : Nat} (here : σ.cons.pc = .load) (load : SeenAfter σ.tails σ.cons.seen j v) (more : σ.cons.head ≠ v) :
      DeqStep (σ.toCons fun c => { c with seen := j, pc := .flush }) false
  | reloadEmpty (here : σ.cons.pc = .reload) (load : σ.tails.getLast? = some σ.cons.head) :
      DeqStep (σ.toCons fun c => { c with seen := σ.tails.length - 1, pc := .idle }) true
  | reloadSome {v : Nat} (here : σ.cons.pc = .reload) (load : σ.tails.getLast? = some v) (more : σ.cons.head ≠ v) :
      DeqStep (σ.toCons fun c => { c with seen := σ.tails.length - 1, pc := .flush }) false
  | flush (here : σ.cons.pc = .flush) :
      DeqStep (σ.toCons fun c => { c with lines := Function.update c.lines c.head none, pc := .read }) false
  | read (here : σ.cons.pc = .read) :
      DeqStep (σ.toCons fun c => { c with
        lines := Function.update c.lines c.head (some ((c.lines c.head).getD (σ.ring c.head)))
        entry := (c.lines c.head).getD (σ.ring c.head), pc := .head }) false
  | head (here : σ.cons.pc = .head) :
      DeqStep { σ.toCons fun c => { c with head := (c.head + 1) % msgNum, dirty := true, pc := .wbHead } with
        dequeued := σ.dequeued ++ [σ.cons.entry] } false
  | wbHead (here : σ.cons.pc = .wbHead) :
      DeqStep { σ.toCons fun c => { c with dirty := false, pc := .idle } with heads := σ.cons.flushed σ.heads } false

/-- The hardware writes a line back: a slot of the ring, or one of the two indices. -/
inductive WriteBack : Queue → Prop where
  | entry (i : Nat) : WriteBack { σ with ring := Function.update σ.ring i (σ.prod.ring i) }
  | tail : WriteBack { σ.toProd fun p => { p with dirty := false } with tails := σ.prod.flushed σ.tails }
  | head : WriteBack { σ.toCons fun c => { c with dirty := false } with heads := σ.cons.flushed σ.heads }

inductive QueueStep : Queue → Prop where
  | enq {σ' : Queue} {fails : Bool} (step : EnqStep σ σ' fails) : QueueStep σ'
  | deq {σ' : Queue} {fails : Bool} (step : DeqStep σ σ' fails) : QueueStep σ'
  | hardware {σ' : Queue} (step : WriteBack σ σ') : QueueStep σ'

end

/-- Runs from an empty queue, whose ring is in memory only. -/
inductive QueueRun : Queue → Prop where
  | init (ring : Nat → MsgMeta) (entry : MsgMeta) :
      QueueRun ⟨ring, [0], [0], ⟨0, ring, false, 0, .idle, entry, (0, ring)⟩,
        ⟨0, fun _ => none, false, 0, .idle, entry, (0, fun _ => none)⟩, [], []⟩
  | step {σ σ' : Queue} (before : QueueRun σ) (next : QueueStep σ σ') : QueueRun σ'

end BiProject.McShare
