import BiProject.Lib.Histories
import BiProject.Lib.LittleEndian
import BiProject.RbTree.Operations
import BiProject.Rpc.Answers

/-!
# The tree behind a server

`rb_tree/imple_bi.c`: the clients' `cb_insert` and `cb_erase` send a `struct rbtree_msg` to the server of node 0 and spin for its
reply, and `rbtree_msg_handler` does what a message asks for on the tree. The messages go through the rings of the remote calls, with
every access to a slot a step of its own.
-/

namespace BiProject.TreeService
set_option autoImplicit false
open BiProject.Lib BiProject.Lib.Histories BiProject.RbTree
open BiProject.Rpc (Msg)

/-! ## Messages -/

/-- `struct rbtree_msg`, with the bytes that fill it up to its size. A `type` of 0 is an insertion, 1 a deletion and -1 a reply. -/
structure RbtreeMsg where
  tree : UInt64
  key : UInt64
  value : UInt64
  type : UInt32
  pad : UInt32
deriving DecidableEq

def sizeofRbtreeMsg : Nat := 32

def RbtreeMsg.toBytes (m : RbtreeMsg) : Msg :=
  leBytes 8 m.tree.toNat ++ (leBytes 8 m.key.toNat ++ (leBytes 8 m.value.toNat ++ (leBytes 4 m.type.toNat ++ leBytes 4 m.pad.toNat)))

/-- The message at an address. -/
def RbtreeMsg.ofBytes (b : Msg) : RbtreeMsg where
  tree := UInt64.ofNat (leNat (b.take 8))
  key := UInt64.ofNat (leNat ((b.drop 8).take 8))
  value := UInt64.ofNat (leNat ((b.drop 16).take 8))
  type := UInt32.ofNat (leNat ((b.drop 24).take 4))
  pad := UInt32.ofNat (leNat ((b.drop 28).take 4))

/-- `-1`. -/
def replyType : UInt32 := 0xffffffff

/-- A call of `cb_insert` or `cb_erase`. -/
inductive Call where
  | insert (key value : UInt64)
  | erase (key : UInt64)
deriving DecidableEq

/-- The request of a call: what it leaves unset is whatever was on the stack. -/
def Call.msg (tree junk : UInt64) (pad : UInt32) : Call → RbtreeMsg
  | .insert key value => ⟨tree, key, value, 0, pad⟩
  | .erase key => ⟨tree, key, junk, 1, pad⟩

/-- What a call returns when it has the reply. -/
def Call.result (reply : RbtreeMsg) : Call → Option UInt64
  | .insert _ _ => none
  | .erase _ => some reply.value

/-! ## The server -/

/-- `msg_reply`. -/
def msgReply (value : UInt64) : RbtreeMsg := ⟨0, 0, value, replyType, 0⟩

/-- `rbtree_msg_handler`, up to its call of `rpc_send_server`: the tree's memory, `msg_reply.value` and the reply. It fails where an
assertion does, where it would work on another tree, and where the tree's functions do not return. -/
def rbtreeMsgHandler (fuel : Nat) (cells : Nat → Addr) (tree : UInt64) (m : Mem) (value : UInt64) (msg : Msg) : Option (Mem × UInt64 × Msg) :=
  let req := RbtreeMsg.ofBytes msg
  if msg.length ≠ sizeofRbtreeMsg ∨ 2 ^ 31 ≤ req.type.toNat ∨ req.tree ≠ tree then none
  else if req.type = 0 then
    (treeBBInsert fuel cells m req.key.toNat req.value.toNat).map fun es => (m.applyAll es, value, (msgReply value).toBytes)
  else
    (treeBBDelete fuel cells m req.key.toNat).map fun (v, es) =>
      (m.applyAll es, UInt64.ofNat v, (msgReply (UInt64.ofNat v)).toBytes)

/-! ## Clients and server -/

/-- Where a client's call is: in `rpc_send`, or in `rpc_recv`. -/
inductive Phase where
  | sends
  | waits
deriving DecidableEq

/-- The rings and the cores, the tree's memory, `msg_reply.value` and the clients' calls; with the calls and returns so far. -/
structure Svc where
  rpc : Rpc.Sys
  mem : Mem
  value : UInt64
  calls : Nat × Nat → Option (Call × Phase)
  hist : List (Event (Nat × Nat) Call (Option UInt64))

def Svc.setCall (σ : Svc) (p : Nat × Nat) (call : Option (Call × Phase)) (rpc : Rpc.Sys) : Svc :=
  { σ with rpc := rpc, calls := Function.update σ.calls p call }

/-- One step. A client calls, goes from `rpc_send` to `rpc_recv`, or returns; the server polls while it has no request, and handles the one
it has; or a core goes on with its call of the rings' functions. -/
inductive Step (nn nc fuel : Nat) (tree : UInt64) (σ : Svc) : Svc → Prop where
  | call {n c : Nat} (call : Call) (junk : UInt64) (pad : UInt32) (free : σ.calls (n, c) = none) :
      Step nn nc fuel tree σ { σ.setCall (n, c) (some (call, .sends)) (σ.rpc.rpcSend n c 0 (call.msg tree junk pad).toBytes) with
        hist := σ.hist ++ [.call (n, c) call] }
  | recv {n c : Nat} {call : Call} (here : σ.calls (n, c) = some (call, .sends)) (idle : σ.rpc.threads (.client n c) = .idle) :
      Step nn nc fuel tree σ (σ.setCall (n, c) (some (call, .waits)) (σ.rpc.rpcRecv n c 0 true))
  | ret {n c : Nat} {call : Call} {msg : Msg} (here : σ.calls (n, c) = some (call, .waits)) (idle : σ.rpc.threads (.client n c) = .idle)
      (last : (σ.rpc.returned n c 0).getLast? = some msg) :
      Step nn nc fuel tree σ { σ.setCall (n, c) none σ.rpc with hist := σ.hist ++ [.ret (n, c) (call.result (.ofBytes msg))] }
  | poll (idle : σ.rpc.threads (.server 0) = .idle) (none : (σ.rpc.log 0).length = (σ.rpc.replied 0).length) :
      Step nn nc fuel tree σ { σ with rpc := σ.rpc.rpcRecvServer 0 }
  | handle {nid cid : Nat} {front : List (Nat × Nat × Msg)} {req reply : Msg} {cells : Nat → Addr} {mem : Mem} {value : UInt64}
      (idle : σ.rpc.threads (.server 0) = .idle) (log : σ.rpc.log 0 = front ++ [(nid, cid, req)])
      (due : front.length = (σ.rpc.replied 0).length) (fresh : Fresh cells σ.mem)
      (small : heapSize σ.mem.heap σ.mem.root + 1 < maxNodes)
      (run : rbtreeMsgHandler fuel cells tree σ.mem σ.value req = some (mem, value, reply)) :
      Step nn nc fuel tree σ { σ with rpc := σ.rpc.rpcSendServer 0 nid cid reply, mem := mem, value := value }
  | micro {a : Rpc.Agent} {rpc : Rpc.Sys} (next : Rpc.Step nn nc σ.rpc (.micro a) rpc) : Step nn nc fuel tree σ { σ with rpc := rpc }

/-- Runs from rings that are not in use and a tree with the pairs of `M`, such as `cb_tree_init` makes. -/
inductive Run (nn nc fuel : Nat) (tree : UInt64) (M : List Kv) : Svc → Prop where
  | init (rings : Rpc.Ring → Nat → Rpc.MsgNode) (unused : ∀ q i, (rings q i).use = 0) {m : Mem} (start : Reached fuel M m) :
      Run nn nc fuel tree M ⟨⟨rings, fun _ => 0, fun _ => 0, fun _ => 0, fun _ => .idle, fun _ _ _ => [], fun _ _ _ => [], fun _ => [], fun _ => []⟩,
        m, 0, fun _ => none, []⟩
  | step {σ σ' : Svc} (before : Run nn nc fuel tree M σ) (next : Step nn nc fuel tree σ σ') : Run nn nc fuel tree M σ'

/-! ## What the tree is for -/

/-- A finite map, one call after another. A deletion returns the value it removes, and NULL where there is none. -/
def spec (M : List Kv) : Call → List Kv × Option UInt64
  | .insert key value => (Op.ref M (.insert key.toNat value.toNat), none)
  | .erase key => (Op.ref M (.delete key.toNat), some (UInt64.ofNat (((M.find? fun x => x.key = key.toNat).map Kv.value).getD 0)))

end BiProject.TreeService
