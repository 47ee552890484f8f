import BiProject.Lib.WriteBack
import BiProject.Rpc.MsgQueue

/-!
# Remote calls on caches that are not coherent

`rpc_send_ext` and `rpc_recv_ext` of `libs/rpc/rpc.c` between two nodes, with the write-backs and flushes of
`include/noncc-cache_util.h`. The fields of `struct msg_meta` are in one line and the bytes of a message in lines of their
own. Each load and store of a field or a byte is a step, and so is each line that is written back or flushed. In between
the hardware may write back any line that was stored to.
-/

namespace BiProject.RpcCache
set_option autoImplicit false
open BiProject.Lib
open BiProject.Rpc (Msg msgNum maxMsgSize)

/-- The nodes at the two ends of a ring. -/
inductive End where
  | snd
  | rcv
deriving DecidableEq

/-- The fields of `struct msg_meta`. -/
structure MsgMeta where
  size : Nat
  use : Nat
deriving DecidableEq

/-- `struct msg_node`: the line of its header and the lines of its data, a byte by its place in the line. -/
structure MsgNode where
  hdr : Line End MsgMeta
  data : Nat → Line End (Nat → UInt8)

def MsgNode.onHdr (node : MsgNode) (f : Line End MsgMeta → Line End MsgMeta) : MsgNode := { node with hdr := f node.hdr }

def MsgNode.onData (node : MsgNode) (l : Nat) (f : Line End (Nat → UInt8) → Line End (Nat → UInt8)) : MsgNode :=
  { node with data := Function.update node.data l (f (node.data l)) }

/-- How many lines `clwb_range` and `clflush_range` go through, from the start of a line on. -/
def dataLines (size : Nat) : Nat := (size + cacheLine - 1) / cacheLine

/-! ## The two ends -/

inductive SendPc where
  | copy (k : Nat)
  | wbData (l : Nat)
  | size
  | use
  | wbHdr
deriving DecidableEq

/-- `rpc_send_ext` in progress, with `cur`. -/
structure Sending where
  msg : Msg
  cur : Nat
  pc : SendPc

/-- One step of `rpc_send_ext` on its slot and its position; it returns where there is none left. -/
def rpcSendExt (slot : MsgNode) (pos : Nat) (s : Sending) : MsgNode × Nat × Option Sending :=
  match s.pc with
  | .copy k =>
    match s.msg[k]? with
    | some b =>
      (slot.onData (k / cacheLine) fun line => line.store .snd fun bytes => Function.update bytes (k % cacheLine) b, pos,
        some { s with pc := .copy (k + 1) })
    | none => (slot, pos, some { s with pc := .wbData 0 })
  | .wbData l =>
    if l < dataLines s.msg.length then (slot.onData l fun line => line.clwb .snd, pos, some { s with pc := .wbData (l + 1) })
    else (slot, pos, some { s with pc := .size })
  | .size => (slot.onHdr fun line => line.store .snd fun h => { h with size := s.msg.length }, pos, some { s with pc := .use })
  | .use => (slot.onHdr fun line => line.store .snd fun h => { h with use := 1 }, pos, some { s with pc := .wbHdr })
  | .wbHdr => (slot.onHdr fun line => line.clwb .snd, s.cur + 1, none)

inductive RecvPc where
  | flushHdr
  | use
  | size
  | flushData (l : Nat)
  | copy
  | clearSize
  | clearUse
  | wbHdr
deriving DecidableEq

/-- `rpc_recv_ext` in progress, with `nd_flush`, `cur`, `ret_sz` and the bytes it has copied to `data`. -/
structure Receiving where
  flush : Bool
  spin : Bool
  cur : Nat
  retSz : Nat
  buf : Msg
  pc : RecvPc

/-- The start of its loop. -/
def loopStart (flush : Bool) : RecvPc := if flush then .flushHdr else .use

/-- One step of `rpc_recv_ext`; it goes on, or returns the bytes. -/
def rpcRecvExt (slot : MsgNode) (pos : Nat) (r : Receiving) : MsgNode × Nat × (Receiving ⊕ Msg) :=
  match r.pc with
  | .flushHdr => (slot.onHdr fun line => line.clflush .rcv, pos, .inl { r with pc := .use })
  | .use =>
    if (slot.hdr.view .rcv).use = 0 then
      (slot.onHdr fun line => line.load .rcv, pos, if r.spin then .inl { r with pc := loopStart r.flush } else .inr [])
    else (slot.onHdr fun line => line.load .rcv, pos, .inl { r with pc := .size })
  | .size =>
    (slot.onHdr fun line => line.load .rcv, pos,
      .inl { r with retSz := (slot.hdr.view .rcv).size, buf := [], pc := if r.flush then .flushData 0 else .copy })
  | .flushData l =>
    if l < dataLines r.retSz then (slot.onData l fun line => line.clflush .rcv, pos, .inl { r with pc := .flushData (l + 1) })
    else (slot, pos, .inl { r with pc := .copy })
  | .copy =>
    let k := r.buf.length
    if k < r.retSz then
      (slot.onData (k / cacheLine) fun line => line.load .rcv, pos,
        .inl { r with buf := r.buf ++ [(slot.data (k / cacheLine)).view .rcv (k % cacheLine)] })
    else (slot, pos, .inl { r with pc := .clearSize })
  | .clearSize => (slot.onHdr fun line => line.store .rcv fun h => { h with size := 0 }, pos, .inl { r with pc := .clearUse })
  | .clearUse => (slot.onHdr fun line => line.store .rcv fun h => { h with use := 0 }, pos, .inl { r with pc := .wbHdr })
  | .wbHdr =>
    (slot.onHdr fun line => line.clwb .rcv, r.cur + 1,
      if r.retSz = 0 ∧ r.spin then .inl { r with pc := loopStart r.flush } else .inr r.buf)

/-! ## A ring -/

/-- A ring, the positions of its ends and their calls in progress; with the messages that were sent and returned. -/
structure Chan where
  slot : Nat → MsgNode
  head : Nat
  tail : Nat
  sending : Option Sending
  receiving : Option Receiving
  sent : List Msg
  got : List Msg

/-- A ring that is not in use and that no node has in its cache. -/
def Chan.init (size : Nat → Nat) (bytes : Nat → Nat → Nat → UInt8) : Chan where
  slot := fun i => ⟨Line.fresh ⟨size i, 0⟩, fun l => Line.fresh (bytes i l)⟩
  head := 0
  tail := 0
  sending := none
  receiving := none
  sent := []
  got := []

def Chan.onSlot (c : Chan) (i : Nat) (f : MsgNode → MsgNode) : Chan := { c with slot := Function.update c.slot i (f (c.slot i)) }

def Chan.beginSend (c : Chan) (msg : Msg) : Chan :=
  { c with sending := some ⟨msg, c.head % msgNum, .copy 0⟩, sent := c.sent ++ [msg] }

def Chan.beginRecv (c : Chan) (flush spin : Bool) : Chan :=
  { c with receiving := some ⟨flush, spin, c.tail % msgNum, 0, [], loopStart flush⟩ }

def Chan.goSend (c : Chan) : Option Chan :=
  match c.sending with
  | none => none
  | some s =>
    let (slot, pos, s') := rpcSendExt (c.slot s.cur) c.head s
    some { c with slot := Function.update c.slot s.cur slot, head := pos, sending := s' }

/-- A call returns a size of 0 where it has no message. -/
def Chan.goRecv (c : Chan) : Option Chan :=
  match c.receiving with
  | none => none
  | some r =>
    match rpcRecvExt (c.slot r.cur) c.tail r with
    | (slot, pos, .inl r') => some { c with slot := Function.update c.slot r.cur slot, tail := pos, receiving := some r' }
    | (slot, pos, .inr msg) => some { c with
        slot := Function.update c.slot r.cur slot
        tail := pos
        receiving := none
        got := if msg = [] then c.got else c.got ++ [msg] }

/-- The hardware writes back a line of a slot: its header, or a line of its data. -/
def Chan.writeBack (c : Chan) (e : End) (i : Nat) : Option Nat → Chan
  | none => c.onSlot i fun node => node.onHdr fun line => line.writeBack e
  | some l => c.onSlot i fun node => node.onData l fun line => line.writeBack e

/-- The lines of a slot, those without a field or a byte apart. -/
def slotLines : Nat := 1 + dataLines maxMsgSize

/-- One line of `__server_flush_msgq`. -/
def Chan.flushLine (c : Chan) (n : Nat) : Chan :=
  c.onSlot (n / slotLines) fun node =>
    match n % slotLines with
    | 0 => node.onHdr fun line => line.clflush .rcv
    | l + 1 => node.onData l fun line => line.clflush .rcv

/-! ## A client and a server -/

/-- The rings of the requests and of the replies. `flushed` tells whether `__server_flush_msgq` has been through since the
server looked at this client's ring, and `flushing` how far it is. -/
structure Sys where
  req : Chan
  rep : Chan
  flushed : Bool
  flushing : Option Nat

inductive Way where
  | request
  | reply
deriving DecidableEq

/-- The client starts a call of `rpc_send` or `rpc_recv` and goes on with it. The server starts one of `rpc_recv_server` on
the client's ring, of `rpc_send_server`, or the flush of the rings, which comes once in a round. -/
inductive Act where
  | rpcSend (msg : Msg)
  | rpcRecv (spin : Bool)
  | sends
  | receives
  | rpcRecvServer
  | rpcSendServer (msg : Msg)
  | flushMsgq
  | flushes
  | serverReceives
  | serverSends
  | writeBack (way : Way) (e : End) (slot : Nat) (line : Option Nat)

def Sys.clientIdle (σ : Sys) : Prop := σ.req.sending.isNone ∧ σ.rep.receiving.isNone

def Sys.serverIdle (σ : Sys) : Prop := σ.req.receiving.isNone ∧ σ.rep.sending.isNone ∧ σ.flushing.isNone

instance (σ : Sys) : Decidable σ.clientIdle := by
  unfold Sys.clientIdle
  infer_instance

instance (σ : Sys) : Decidable σ.serverIdle := by
  unfold Sys.serverIdle
  infer_instance

/-- A message of a caller. -/
def Sizes (msg : Msg) : Prop := 1 ≤ msg.length ∧ msg.length < maxMsgSize

instance (msg : Msg) : Decidable (Sizes msg) := by
  unfold Sizes
  infer_instance

/-- The client waits for the reply before its next request, and the server sends one for each request. -/
def Sys.step (σ : Sys) : Act → Option Sys
  | .rpcSend msg => if σ.clientIdle ∧ Sizes msg ∧ σ.rep.got.length = σ.req.sent.length then some { σ with req := σ.req.beginSend msg } else none
  | .rpcRecv spin => if σ.clientIdle then some { σ with rep := σ.rep.beginRecv true spin } else none
  | .sends => σ.req.goSend.map fun c => { σ with req := c }
  | .receives => σ.rep.goRecv.map fun c => { σ with rep := c }
  | .rpcRecvServer =>
    if σ.serverIdle ∧ σ.flushed = true then some { σ with req := σ.req.beginRecv false false, flushed := false } else none
  | .rpcSendServer msg =>
    if σ.serverIdle ∧ Sizes msg ∧ σ.rep.sent.length < σ.req.got.length then some { σ with rep := σ.rep.beginSend msg } else none
  | .flushMsgq => if σ.serverIdle then some { σ with flushing := some 0 } else none
  | .flushes =>
    match σ.flushing with
    | none => none
    | some n =>
      if n < msgNum * slotLines then some { σ with req := σ.req.flushLine n, flushing := some (n + 1) }
      else some { σ with flushing := none, flushed := true }
  | .serverReceives => σ.req.goRecv.map fun c => { σ with req := c }
  | .serverSends => σ.rep.goSend.map fun c => { σ with rep := c }
  | .writeBack .request e i l => some { σ with req := σ.req.writeBack e i l }
  | .writeBack .reply e i l => some { σ with rep := σ.rep.writeBack e i l }

def Sys.init (size : Way → Nat → Nat) (bytes : Way → Nat → Nat → Nat → UInt8) : Sys :=
  ⟨Chan.init (size .request) (bytes .request), Chan.init (size .reply) (bytes .reply), true, none⟩

/-- Runs from rings that are not in use, of steps that all meet a condition. -/
inductive Run (meets : Sys → Act → Prop) : Sys → Prop where
  | init (size : Way → Nat → Nat) (bytes : Way → Nat → Nat → Nat → UInt8) : Run meets (Sys.init size bytes)
  | step {σ σ' : Sys} {a : Act} (before : Run meets σ) (allowed : meets σ a) (next : σ.step a = some σ') : Run meets σ'

/-- The receiver of a ring is to write a header back, and the sender's call is still in progress. -/
def Chan.early (c : Chan) : Bool :=
  match c.receiving with
  | some r => decide (r.pc = .wbHdr) && c.sending.isSome
  | none => false

/-- **No header is given back early**: where a receiver writes a cleared header back, the sender's own write-back of it has
come before. -/
def Sys.patient (σ : Sys) : Act → Prop
  | .receives => σ.rep.early = false
  | .serverReceives => σ.req.early = false
  | _ => True

instance (σ : Sys) (a : Act) : Decidable (σ.patient a) := by
  unfold Sys.patient
  split <;> infer_instance

end BiProject.RpcCache
