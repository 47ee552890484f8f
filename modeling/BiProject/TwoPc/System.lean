import BiProject.Lib.Histories
import BiProject.McShare.MsgQueue
import BiProject.TwoPc.EventLoop

/-!
# Two servers and two clients

`client_get_key` and `client_set_key` send one request to the client's own server and wait for the answer; the servers
take messages from any of their queues that is not empty. A node whose assertion failed does nothing any more. The
history of the clients' calls is kept beside the state.
-/

namespace BiProject.TwoPc
set_option autoImplicit false
open BiProject.McServer BiProject.Lib.Histories

/-- What a client waits for. -/
inductive Pc where
  | idle
  | getKey (key : Key)
  | setKey (key : Key) (data : Value)
deriving DecidableEq

inductive Op where
  | get (key : Key)
  | set (key : Key) (data : Value)

inductive Res where
  | got (data : Option (List UInt8))
  | stored

/-- The single map that the servers keep together. -/
def spec (m : Key → Option (List UInt8)) : Op → (Key → Option (List UInt8)) × Res
  | .get key => (m, .got (m key))
  | .set key data => (Function.update m key (some data.1), .stored)

/-- `chan src dst` is the queue `nodes[dst].recv[src]`. -/
structure System (hash : List UInt8 → Nat) where
  srv : Side → Srv hash
  client : Side → Pc
  chan : Node → Node → List McMsg
  failed : Node → Option Assertion
  hist : List (Event Side Op Res)

section
variable {hash : List UInt8 → Nat}

def System.init : System hash := ⟨fun _ => Srv.init, fun _ => .idle, fun _ _ => [], fun _ => none, []⟩

def System.fail (σ : System hash) (n : Node) (a : Assertion) : System hash :=
  { σ with failed := Function.update σ.failed n (some a) }

def System.setChan (σ : System hash) (src dst : Node) (q : List McMsg) : System hash :=
  { σ with chan := fun a b => if a = src ∧ b = dst then q else σ.chan a b }

def System.setSrv (σ : System hash) (s : Side) (st : Srv hash) : System hash :=
  { σ with srv := Function.update σ.srv s st }

/-- `rpc_send` and the assertion behind it: the ring takes one entry less than it has slots. -/
def System.rpcSend (σ : System hash) (src dst : Node) (m : McMsg) : System hash :=
  if (σ.chan src dst).length + 1 < McShare.msgNum then σ.setChan src dst (σ.chan src dst ++ [m]) else σ.fail src .queueFull

/-- `rpc_recv`, when it finds a message from `src`. -/
def System.rpcRecv (σ : System hash) (src dst : Node) : Option (McMsg × System hash) :=
  match σ.chan src dst with
  | [] => none
  | m :: rest => some (m, σ.setChan src dst rest)

/-- `client_get_key` and `client_set_key`, up to the call of `rpc_send`. -/
def System.call (σ : System hash) (c : Side) (op : Op) (pc : Pc) : System hash :=
  { σ with client := Function.update σ.client c pc, hist := σ.hist ++ [.call c op] }

def System.ret (σ : System hash) (c : Side) (r : Res) : System hash :=
  { σ with client := Function.update σ.client c .idle, hist := σ.hist ++ [.ret c r] }

/-- What `client_get_key` and `client_set_key` do with the answer; a value starts with `$`. -/
def clientReply (c : Side) : Pc → McMsg → Except Assertion Res
  | .getKey _, m => do
    assert (m.id = .server c) .replyId
    match m with
    | .getOk _ data =>
      assert (data.length = vLength) .replyData
      assert (data.head? = some 36) .replyData
      return .got (some data)
    | .getFail _ => return .got none
    | _ => .error .replyType
  | .setKey _ _, m => do
    assert (m.id = .server c) .replyId
    match m with
    | .setOk _ => return .stored
    | _ => .error .replyType
  | .idle, _ => .error .replyType

/-- Clients call and get their answers, servers take turns. -/
inductive Act where
  | get (c : Side) (key : Key)
  | set (c : Side) (key : Key) (data : Value)
  | reply (c : Side) (src : Node)
  | turn (s : Side) (src : Node)

def System.step (σ : System hash) : Act → Option (System hash)
  | .get c key => do
    guard (σ.failed (.client c) = none ∧ σ.client c = .idle)
    return (σ.call c (.get key) (.getKey key)).rpcSend (.client c) (.server c) (.get (.client c) key)
  | .set c key data => do
    guard (σ.failed (.client c) = none ∧ σ.client c = .idle)
    return (σ.call c (.set key data) (.setKey key data)).rpcSend (.client c) (.server c) (.set (.client c) key data)
  | .reply c src => do
    guard (σ.failed (.client c) = none ∧ σ.client c ≠ .idle)
    let (m, σ) ← σ.rpcRecv src (.client c)
    match clientReply c (σ.client c) m with
    | .error a => return σ.fail (.client c) a
    | .ok r => return σ.ret c r
  | .turn s src => do
    guard (σ.failed (.server s) = none ∧ (σ.srv s).e = true)
    let (m, σ) ← σ.rpcRecv src (.server s)
    match eventLoop s (σ.srv s) m with
    | .error a => return σ.fail (.server s) a
    | .ok (st, none) => return σ.setSrv s st
    | .ok (st, some (dst, m)) => return (σ.setSrv s st).rpcSend (.server s) dst m

/-- The states of the runs whose steps all meet a condition. -/
inductive Reach (meets : System hash → Act → Prop) : System hash → Prop
  | init : Reach meets System.init
  | step {σ σ' : System hash} {a : Act} : Reach meets σ → meets σ a → σ.step a = some σ' → Reach meets σ'

/-- The states of all runs. -/
def Reachable (σ : System hash) : Prop := Reach (fun _ _ => True) σ

theorem reachable_foldlM {σ σ' : System hash} (acts : List Act) (reach : Reachable σ)
    (run : acts.foldlM System.step σ = some σ') : Reachable σ' := by
  induction acts generalizing σ with
  | nil =>
    obtain rfl : σ = σ' := by simpa using run
    exact reach
  | cons a acts ih =>
    rw [List.foldlM_cons, Option.bind_eq_bind, Option.bind_eq_some_iff] at run
    obtain ⟨σ₁, step, rest⟩ := run
    exact ih (reach.step trivial step) rest

end

/-- A key and a value, for examples. -/
def someKey : Key := ⟨List.replicate keyLength 97, by decide⟩
def someValue : Value := ⟨List.replicate vLength 36, by decide⟩

end BiProject.TwoPc
