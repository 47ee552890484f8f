import BiProject.Lib.Mailbox
import BiProject.TwoPc.System

/-!
# Messages in shared buffers

`share/rpc.h` keeps two buffers for each ordered pair of nodes. A sender fills them in turn, and its queue carries only
which one; the handler reads the message in the buffer. So a message is written, sent, taken from the queue and handled
in steps of their own, and between them the other nodes go on. The clients run their programs: client 2 loads keys and
tells both servers to begin, then both clients meet, run their traces, meet again and stop their servers.
-/

namespace BiProject.TwoPc
set_option autoImplicit false
open BiProject.McServer BiProject.Lib

/-- Where a client is in `client_init` and `client_start`. -/
inductive Stage where
  | preload
  | begin0
  | begin1
  | sync1
  | wait1
  | bench
  | sync2
  | wait2
  | exit
  | done
deriving DecidableEq

/-- The calls of `preload_key` and `bench`, of any number of keys. -/
def Stage.allows : Stage → Op → Bool
  | .preload, .set _ _ => true
  | .bench, _ => true
  | _, _ => false

/-- The messages that `disconnect_mc_server` sends. -/
def Stage.disconnect (c : Side) : Stage → Option (Node × McMsg)
  | .begin0 => some (.server node0, .mcBegin (.client c))
  | .begin1 => some (.server node1, .mcBegin (.client c))
  | .exit => some (.server c, .mcExit (.client c))
  | _ => none

/-- What follows them. -/
def Stage.next : Stage → Stage
  | .begin0 => .begin1
  | .begin1 => .sync1
  | .exit => .done
  | stage => stage

def Op.pc : Op → Pc
  | .get k => .getKey k
  | .set k v => .setKey k v

def Op.request (c : Side) : Op → McMsg
  | .get k => .get (.client c) k
  | .set k v => .set (.client c) k v

/-- `box src dst` has the two buffers and the queue of a pair. A node is reading a message of the node it took it from
until it is through with it, and sending one to the node it wrote it for until it has passed it to `rpc_send`. -/
structure Buffered (hash : List UInt8 → Nat) where
  srv : Side → Srv hash
  client : Side → Pc
  stage : Side → Stage
  meeting : Nat
  reading : Node → Option Node
  sending : Node → Option Node
  box : Node → Node → Mailbox McMsg
  failed : Node → Option Assertion

section
variable {hash : List UInt8 → Nat}

def Buffered.init : Buffered hash where
  srv := fun _ => Srv.init
  client := fun _ => .idle
  stage := fun c => if c = node0 then .preload else .sync1
  meeting := 0
  reading := fun _ => none
  sending := fun _ => none
  box := fun _ _ => Mailbox.empty
  failed := fun _ => none

def Buffered.fail (σ : Buffered hash) (n : Node) (a : Assertion) : Buffered hash :=
  { σ with failed := Function.update σ.failed n (some a) }

def Buffered.setSrv (σ : Buffered hash) (s : Side) (st : Srv hash) : Buffered hash :=
  { σ with srv := Function.update σ.srv s st }

def Buffered.setReading (σ : Buffered hash) (n : Node) (src : Option Node) : Buffered hash :=
  { σ with reading := Function.update σ.reading n src }

def Buffered.setSending (σ : Buffered hash) (n : Node) (dst : Option Node) : Buffered hash :=
  { σ with sending := Function.update σ.sending n dst }

def Buffered.onBox (σ : Buffered hash) (src dst : Node) (f : Mailbox McMsg → Mailbox McMsg) : Buffered hash :=
  { σ with box := fun a b => if a = src ∧ b = dst then f (σ.box a b) else σ.box a b }

/-- `rpc_addr(n, dst, msg_idx[n][dst]++)` and the stores into this buffer. -/
def Buffered.write (σ : Buffered hash) (n dst : Node) (m : McMsg) : Buffered hash :=
  (σ.onBox n dst (Mailbox.write 2 m)).setSending n (some dst)

/-- After `rpc_send` a server is through with the message it handled, -/
def Buffered.turnDone (σ : Buffered hash) (s : Side) : Buffered hash :=
  match σ.reading (.server s) with
  | some src => ((σ.onBox src (.server s) Mailbox.finish).setReading (.server s) none).setSending (.server s) none
  | none => σ.setSending (.server s) none

/-- and a client waits, or goes on in its program. -/
def Buffered.sendDone (σ : Buffered hash) (c : Side) : Buffered hash :=
  { σ.setSending (.client c) none with
    stage := Function.update σ.stage c (if σ.client c = .idle then (σ.stage c).next else σ.stage c) }

/-- The entry that `rpc_send` passes to `msg_enqueue`, when there is room for it. -/
def Buffered.room (σ : Buffered hash) (n dst : Node) : Bool := (σ.box n dst).queue.length + 1 < McShare.msgNum

/-- `rpc_send`. Without room the caller's assertion fails, but `disconnect_mc_server` has none. -/
def Buffered.rpcSend (σ : Buffered hash) (n dst : Node) : Buffered hash :=
  match n with
  | .server s => if σ.room n dst then (σ.onBox n dst Mailbox.send).turnDone s else σ.fail n .queueFull
  | .client c =>
    if σ.room n dst then (σ.onBox n dst Mailbox.send).sendDone c
    else if σ.client c = .idle then (σ.onBox n dst Mailbox.drop).sendDone c
    else σ.fail n .queueFull

/-- A node is in `rpc_recv`. -/
def Buffered.polls (σ : Buffered hash) (n : Node) : Prop :=
  σ.failed n = none ∧ σ.reading n = none ∧ σ.sending n = none ∧
    match n with
    | .server s => (σ.srv s).e = true
    | .client c => σ.client c ≠ .idle

instance (σ : Buffered hash) (n : Node) : Decidable (σ.polls n) := by
  unfold Buffered.polls
  cases n <;> infer_instance

/-- A client is between two calls. -/
def Buffered.rests (σ : Buffered hash) (c : Side) : Prop :=
  σ.failed (.client c) = none ∧ σ.client c = .idle ∧ σ.sending (.client c) = none

instance (σ : Buffered hash) (c : Side) : Decidable (σ.rests c) := by
  unfold Buffered.rests
  infer_instance

/-- The client's program between the messages: `rpc_sync` adds one and waits for the others. -/
def Buffered.advance (σ : Buffered hash) (c : Side) : Option (Buffered hash) :=
  let go (stage : Stage) (n : Nat) : Buffered hash :=
    { σ with stage := Function.update σ.stage c stage, meeting := n }
  match σ.stage c with
  | .preload => some (go .begin0 σ.meeting)
  | .sync1 => some (go .wait1 (σ.meeting + 1))
  | .wait1 => if σ.meeting = 2 then some (go .bench σ.meeting) else none
  | .bench => some (go .sync2 σ.meeting)
  | .sync2 => some (go .wait2 (σ.meeting + 1))
  | .wait2 => if σ.meeting = 4 then some (go .exit σ.meeting) else none
  | _ => none

/-- Clients write requests and the messages of `disconnect_mc_server` and go on in their programs; every node sends
what it wrote and takes messages; servers handle them, and clients have their answers. -/
inductive BufAct where
  | call (c : Side) (op : Op)
  | disconnect (c : Side)
  | advance (c : Side)
  | send (n : Node)
  | recv (n src : Node)
  | handle (s : Side)
  | answer (c : Side)

def Buffered.step (σ : Buffered hash) : BufAct → Option (Buffered hash)
  | .call c op => do
    guard (σ.rests c ∧ (σ.stage c).allows op = true)
    return { σ.write (.client c) (.server c) (op.request c) with client := Function.update σ.client c op.pc }
  | .disconnect c => do
    guard (σ.rests c)
    let (dst, m) ← (σ.stage c).disconnect c
    return σ.write (.client c) dst m
  | .advance c => do
    guard (σ.rests c)
    σ.advance c
  | .send n => do
    guard (σ.failed n = none)
    let dst ← σ.sending n
    return σ.rpcSend n dst
  | .recv n src => do
    guard (σ.polls n ∧ (σ.box src n).queue ≠ [])
    return (σ.onBox src n Mailbox.recv).setReading n (some src)
  | .handle s => do
    guard (σ.failed (.server s) = none ∧ σ.sending (.server s) = none)
    let src ← σ.reading (.server s)
    let m ← (σ.box src (.server s)).content
    match eventLoop s (σ.srv s) m with
    | .error a => return σ.fail (.server s) a
    | .ok (st, none) =>
      return ((σ.onBox src (.server s) fun p => p.read.finish).setReading (.server s) none).setSrv s st
    | .ok (st, some (dst, m')) => return ((σ.onBox src (.server s) Mailbox.read).write (.server s) dst m').setSrv s st
  | .answer c => do
    guard (σ.failed (.client c) = none)
    let src ← σ.reading (.client c)
    let m ← (σ.box src (.client c)).content
    match clientReply c (σ.client c) m with
    | .error a => return σ.fail (.client c) a
    | .ok _ => return { (σ.onBox src (.client c) fun p => p.read.finish).setReading (.client c) none with
        client := Function.update σ.client c .idle }

/-- The states of the runs of both clients and servers. -/
inductive Buffered.Run : Buffered hash → Prop
  | init : Buffered.Run Buffered.init
  | step {σ σ' : Buffered hash} {a : BufAct} : Buffered.Run σ → σ.step a = some σ' → Buffered.Run σ'

/-- The node that a handler writes its message for, before it asserts that `mc_commit` returned 0. -/
def Srv.target (cur : Side) (st : Srv hash) : McMsg → Option Node
  | .set _ _ _ => some (.server (peer cur))
  | .get sender _ | .prepare sender _ _ | .prepareOk sender _ _ | .commit sender _ _ => some sender
  | .commitOk _ => some st.clientId
  | _ => none

/-- The pair of nodes whose buffers a step writes to. -/
def Buffered.writes (σ : Buffered hash) : BufAct → Option (Node × Node)
  | .call c _ => some (.client c, .server c)
  | .disconnect c => ((σ.stage c).disconnect c).map fun x => (.client c, x.1)
  | .handle s => do
    let src ← σ.reading (.server s)
    let m ← (σ.box src (.server s)).content
    let dst ← (σ.srv s).target s m
    return (.server s, dst)
  | _ => none

end

end BiProject.TwoPc
