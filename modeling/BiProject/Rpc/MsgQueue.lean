import BiProject.Constant
import Mathlib.Data.List.Basic
import Mathlib.Data.Option.Basic
import Mathlib.Logic.Function.Basic

/-!
# Remote calls

`libs/rpc/rpc.c` gives each client core two rings of messages with each server, one for requests and one for
replies. The two ends of a ring keep a position each, in arrays of their own process, and never compare
them; a sender does not look whether the slot it writes is in use. Here every access to a slot is a step of
its own, in any interleaving of the cores.
-/

namespace BiProject.Rpc
set_option autoImplicit false

def msgNum : Nat := 8
def maxMsgSize : Nat := 256

abbrev Msg := List UInt8

/-- `struct msg_node`, with the fields of its `struct msg_meta`. -/
structure MsgNode where
  size : Nat
  use : Nat
  data : Nat → UInt8

/-! ## The two ends of a ring -/

inductive SendPc where
  | copy (k : Nat) | size | use | pos
  deriving DecidableEq

/-- `rpc_send_ext` in progress, with `cur`. -/
structure Sending where
  msg : Msg
  cur : Nat
  pc : SendPc

def rpcSendBegin (pos : Nat) (msg : Msg) : Sending := ⟨msg, pos % msgNum, .copy 0⟩

/-- One step of `rpc_send_ext` on its slot and its position; it returns where there is none left. -/
def rpcSendExt (slot : MsgNode) (pos : Nat) (s : Sending) : MsgNode × Nat × Option Sending :=
  match s.pc with
  | .copy k =>
    if here : k < s.msg.length then
      ({ slot with data := Function.update slot.data k (s.msg.get ⟨k, here⟩) }, pos, some { s with pc := .copy (k + 1) })
    else (slot, pos, some { s with pc := .size })
  | .size => ({ slot with size := s.msg.length }, pos, some { s with pc := .use })
  | .use => ({ slot with use := 1 }, pos, some { s with pc := .pos })
  | .pos => (slot, s.cur + 1, none)

inductive RecvPc where
  | use | size | copy | clearSize | clearUse | pos
  deriving DecidableEq

/-- `rpc_recv_ext` in progress, with `cur`, `ret_sz` and the bytes it has copied to `data`. -/
structure Receiving where
  spin : Bool
  cur : Nat
  retSz : Nat
  buf : Msg
  pc : RecvPc

def rpcRecvBegin (pos : Nat) (spin : Bool) : Receiving := ⟨spin, pos % msgNum, 0, [], .use⟩

/-- One step of `rpc_recv_ext`; it goes on, or returns the bytes. -/
def rpcRecvExt (slot : MsgNode) (pos : Nat) (r : Receiving) : MsgNode × Nat × (Receiving ⊕ Msg) :=
  match r.pc with
  | .use =>
    if slot.use = 0 then (slot, pos, if r.spin then .inl r else .inr [])
    else (slot, pos, .inl { r with pc := .size })
  | .size => (slot, pos, .inl { r with retSz := slot.size, buf := [], pc := .copy })
  | .copy =>
    if r.buf.length < r.retSz then (slot, pos, .inl { r with buf := r.buf ++ [slot.data r.buf.length] })
    else (slot, pos, .inl { r with pc := .clearSize })
  | .clearSize => ({ slot with size := 0 }, pos, .inl { r with pc := .clearUse })
  | .clearUse => ({ slot with use := 0 }, pos, .inl { r with pc := .pos })
  | .pos => (slot, r.cur + 1, if r.retSz = 0 ∧ r.spin then .inl { r with pc := .use } else .inr r.buf)

/-! ## Rings and positions -/

inductive Way where
  | request | reply
  deriving DecidableEq

/-- `send_rings[srv].info[nid][cid]` of the layout, and `recv_rings[srv].info[nid][cid]`. -/
structure Ring where
  way : Way
  srv : Nat
  nid : Nat
  cid : Nat
  deriving DecidableEq

/-- The four functions of `include/mem_mgr.h`, on the node and core that call them. -/
def getSendRing (node core nid : Nat) : Ring := ⟨.request, nid, node, core⟩
def getRecvRing (node core nid : Nat) : Ring := ⟨.reply, nid, node, core⟩
def getSendRingServer (node nid cid : Nat) : Ring := ⟨.reply, node, nid, cid⟩
def getRecvRingServer (node nid cid : Nat) : Ring := ⟨.request, node, nid, cid⟩

inductive PosArray where
  | sntHead | sntTail | rcvHead | rcvTail
  deriving DecidableEq

/-- An `int *` to a position: an entry of `head` or `tail` of `snt_pos` or `rcv_pos` of a node's process. -/
structure PosPtr where
  proc : Nat
  array : PosArray
  node : Nat
  core : Nat
  deriving DecidableEq

/-- The cores that call: the clients, and one server a node. -/
inductive Agent where
  | client (nid cid : Nat)
  | server (nid : Nat)
  deriving DecidableEq

inductive Thread where
  | idle
  | sending (q : Ring) (pos : PosPtr) (s : Sending)
  | receiving (q : Ring) (pos : PosPtr) (r : Receiving)

/-- The rings, the positions, `svr_node` and `svr_core` of each node, and the cores; with what was sent and
returned so far: by each core to and from each server, and by each server, with the `nid` and `cid` it was
given or reported. -/
structure Sys where
  rings : Ring → Nat → MsgNode
  pos : PosPtr → Nat
  svrNode : Nat → Nat
  svrCore : Nat → Nat
  threads : Agent → Thread
  requests : Nat → Nat → Nat → List Msg
  returned : Nat → Nat → Nat → List Msg
  replied : Nat → List (Nat × Nat × Msg)
  log : Nat → List (Nat × Nat × Msg)

/-- The messages with a label. -/
def labelled (nid cid : Nat) (l : List (Nat × Nat × Msg)) : List Msg :=
  l.filterMap fun e => if e.1 = nid ∧ e.2.1 = cid then some e.2.2 else none

/-- What the sender of a ring has sent on it. -/
def Sys.sent (σ : Sys) (q : Ring) : List Msg :=
  match q.way with
  | .request => σ.requests q.nid q.cid q.srv
  | .reply => labelled q.nid q.cid (σ.replied q.srv)

/-- What the receiver of a ring has returned from it. -/
def Sys.got (σ : Sys) (q : Ring) : List Msg :=
  match q.way with
  | .request => labelled q.nid q.cid (σ.log q.srv)
  | .reply => σ.returned q.nid q.cid q.srv

/-! ## Steps -/

/-- `__advance_recv_id`, with `nn` nodes and `nc` cores a node. -/
def advanceRecvId (nn nc : Nat) (p : Nat × Nat) : Nat × Nat :=
  if (p.2 + 1) % nc = 0 then ((p.1 + 1) % nn, 0) else (p.1, p.2 + 1)

def Sys.setThread (σ : Sys) (a : Agent) (t : Thread) : Sys := { σ with threads := Function.update σ.threads a t }

/-- A slot and a position after a step. -/
def Sys.setSlot (σ : Sys) (q : Ring) (cur : Nat) (slot : MsgNode) (ptr : PosPtr) (pos : Nat) : Sys :=
  { σ with rings := Function.update σ.rings q (Function.update (σ.rings q) cur slot), pos := Function.update σ.pos ptr pos }

/-- `rpc_send` and `rpc_send_server`, up to their call of `rpc_send_ext`. -/
def Sys.rpcSend (σ : Sys) (n c node : Nat) (msg : Msg) : Sys :=
  let pos : PosPtr := ⟨n, .sntHead, node, c⟩
  { σ.setThread (.client n c) (.sending (getSendRing n c node) pos (rpcSendBegin (σ.pos pos) msg)) with
    requests := Function.update σ.requests n (Function.update (σ.requests n) c
      (Function.update (σ.requests n c) node (σ.requests n c node ++ [msg]))) }

def Sys.rpcSendServer (σ : Sys) (srv nid cid : Nat) (msg : Msg) : Sys :=
  let pos : PosPtr := ⟨srv, .rcvHead, nid, cid⟩
  { σ.setThread (.server srv) (.sending (getSendRingServer srv nid cid) pos (rpcSendBegin (σ.pos pos) msg)) with
    replied := Function.update σ.replied srv (σ.replied srv ++ [(nid, cid, msg)]) }

/-- `rpc_recv` and `rpc_recv_server`, up to their call of `rpc_recv_ext`. -/
def Sys.rpcRecv (σ : Sys) (n c node : Nat) (spin : Bool) : Sys :=
  let pos : PosPtr := ⟨n, .rcvTail, node, c⟩
  σ.setThread (.client n c) (.receiving (getRecvRing n c node) pos (rpcRecvBegin (σ.pos pos) spin))

def Sys.rpcRecvServer (σ : Sys) (srv : Nat) : Sys :=
  let pos : PosPtr := ⟨srv, .sntTail, σ.svrNode srv, σ.svrCore srv⟩
  σ.setThread (.server srv)
    (.receiving (getRecvRingServer srv (σ.svrNode srv) (σ.svrCore srv)) pos (rpcRecvBegin (σ.pos pos) false))

/-- `rpc_recv` returns to the core of a client what it received from the server of `node`. -/
def Sys.recvReturns (σ : Sys) (n c node : Nat) (msg : Msg) : Sys :=
  { σ.setThread (.client n c) .idle with
    returned := Function.update σ.returned n (Function.update (σ.returned n) c
      (Function.update (σ.returned n c) node (σ.returned n c node ++ if msg = [] then [] else [msg]))) }

/-- `rpc_recv_server` returns, with `*nid` and `*cid`, and goes on to the next ring. -/
def Sys.recvServerReturns (σ : Sys) (nn nc srv : Nat) (msg : Msg) : Sys :=
  let next := advanceRecvId nn nc (σ.svrNode srv, σ.svrCore srv)
  { σ.setThread (.server srv) .idle with
    log := Function.update σ.log srv (σ.log srv ++ if msg = [] then [] else [(σ.svrNode srv, σ.svrCore srv, msg)])
    svrNode := Function.update σ.svrNode srv next.1
    svrCore := Function.update σ.svrCore srv next.2 }

/-- What a call that returns does next. -/
def Sys.returns (σ : Sys) (nn nc : Nat) (q : Ring) (msg : Msg) : Agent → Sys
  | .client n c => σ.recvReturns n c q.srv msg
  | .server srv => σ.recvServerReturns nn nc srv msg

inductive Label where
  | send (n c node : Nat) (msg : Msg)
  | sendServer (srv nid cid : Nat) (msg : Msg)
  | recv (n c node : Nat) (spin : Bool)
  | recvServer (srv : Nat)
  | micro (a : Agent)

/-- One step: a call begins, or a core goes on with its own. The callers send messages of these sizes, and
never more than `MSG_NUM` that are unread on a ring. -/
inductive Step (nn nc : Nat) (σ : Sys) : Label → Sys → Prop where
  | send {n c node : Nat} {msg : Msg} (idle : σ.threads (.client n c) = .idle) (some : 1 ≤ msg.length)
      (size : msg.length < maxMsgSize)
      (room : (σ.sent (getSendRing n c node)).length < (σ.got (getSendRing n c node)).length + msgNum) :
      Step nn nc σ (.send n c node msg) (σ.rpcSend n c node msg)
  | sendServer {srv nid cid : Nat} {msg : Msg} (idle : σ.threads (.server srv) = .idle) (some : 1 ≤ msg.length)
      (size : msg.length < maxMsgSize)
      (room : (σ.sent (getSendRingServer srv nid cid)).length < (σ.got (getSendRingServer srv nid cid)).length + msgNum) :
      Step nn nc σ (.sendServer srv nid cid msg) (σ.rpcSendServer srv nid cid msg)
  | recv {n c node : Nat} {spin : Bool} (idle : σ.threads (.client n c) = .idle) :
      Step nn nc σ (.recv n c node spin) (σ.rpcRecv n c node spin)
  | recvServer {srv : Nat} (idle : σ.threads (.server srv) = .idle) : Step nn nc σ (.recvServer srv) (σ.rpcRecvServer srv)
  | sends {a : Agent} {q : Ring} {ptr : PosPtr} {s s' : Sending} {slot : MsgNode} {pos : Nat}
      (active : σ.threads a = .sending q ptr s)
      (run : rpcSendExt (σ.rings q s.cur) (σ.pos ptr) s = (slot, pos, Option.some s')) :
      Step nn nc σ (.micro a) ((σ.setSlot q s.cur slot ptr pos).setThread a (.sending q ptr s'))
  | sent {a : Agent} {q : Ring} {ptr : PosPtr} {s : Sending} {slot : MsgNode} {pos : Nat}
      (active : σ.threads a = .sending q ptr s) (run : rpcSendExt (σ.rings q s.cur) (σ.pos ptr) s = (slot, pos, none)) :
      Step nn nc σ (.micro a) ((σ.setSlot q s.cur slot ptr pos).setThread a .idle)
  | receives {a : Agent} {q : Ring} {ptr : PosPtr} {r r' : Receiving} {slot : MsgNode} {pos : Nat}
      (active : σ.threads a = .receiving q ptr r)
      (run : rpcRecvExt (σ.rings q r.cur) (σ.pos ptr) r = (slot, pos, .inl r')) :
      Step nn nc σ (.micro a) ((σ.setSlot q r.cur slot ptr pos).setThread a (.receiving q ptr r'))
  | returns {a : Agent} {q : Ring} {ptr : PosPtr} {r : Receiving} {slot : MsgNode} {pos : Nat} {msg : Msg}
      (active : σ.threads a = .receiving q ptr r)
      (run : rpcRecvExt (σ.rings q r.cur) (σ.pos ptr) r = (slot, pos, .inr msg)) :
      Step nn nc σ (.micro a) ((σ.setSlot q r.cur slot ptr pos).returns nn nc q msg a)

/-- Runs from rings that are not in use, of steps that a condition allows. -/
inductive Run (nn nc : Nat) (allowed : Sys → Label → Prop) : Sys → Prop where
  | init (rings : Ring → Nat → MsgNode) (unused : ∀ q i, (rings q i).use = 0) :
      Run nn nc allowed ⟨rings, fun _ => 0, fun _ => 0, fun _ => 0, fun _ => .idle, fun _ _ _ => [], fun _ _ _ => [],
        fun _ => [], fun _ => []⟩
  | step {σ σ' : Sys} {l : Label} (before : Run nn nc allowed σ) (allow : allowed σ l) (next : Step nn nc σ l σ') :
      Run nn nc allowed σ'

end BiProject.Rpc
