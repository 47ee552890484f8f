import BiProject.Lib.Mailbox
import BiProject.McShare.MsgQueue
import BiProject.MpMc.EventLoop

/-!
# Two servers and two clients of `mp_mc`

`share/rpc.h` has one buffer for each ordered pair of nodes, and a queue that carries only where it is; the receiver
reads the message in the buffer. So a message is written, sent, taken from the queue and handled in steps of their own.
The clients run the programs of `clients/client.c`: client 2 loads keys and tells both servers to begin, without waiting
for them; then both clients meet, run their traces, meet again and stop a server each. Waiting and polling in vain are
no steps.
-/

namespace BiProject.MpMc
set_option autoImplicit false
open BiProject.McServer BiProject.Lib

/-! ## The programs of the clients -/

inductive Op where
  | get (key : Key)
  | set (key : Key)
deriving DecidableEq

/-- `'$'`. -/
def dollar : UInt8 := 36

/-- `memset(value, '$', V_LENGTH)`. -/
def dollars : Value := ⟨List.replicate vLength dollar, List.length_replicate⟩

def Op.key : Op → Key
  | .get key | .set key => key

/-- The server that a request goes to. -/
def Op.node (hash : List UInt8 → Nat) (op : Op) : ServerNode := hv2node (hash op.key)

def Op.request (c : ClientNode) : Op → Request
  | .get key => .get c key
  | .set key => .set c key dollars

/-- The keys of `preload_key`, and what each client has in `ops`. -/
structure Program where
  keys : List Key
  trace : ClientNode → List Op

/-- Where a client is in `client_init` and `client_start`. -/
inductive Stage where
  | preload
  | begin0
  | begin1
  | sync1
  | wait1
  | bench
  | sync2
  | wait2
  | exit
  | done
deriving DecidableEq

/-- The loops of `preload_key` and `bench`. -/
def Stage.calls : Stage → Bool
  | .preload | .bench => true
  | _ => false

/-- The messages of `disconnect_mc_server`. -/
def Stage.disconnect (c : ClientNode) : Stage → Option (ServerNode × Request)
  | .begin0 => some (.s0, .mcBegin c)
  | .begin1 => some (.s1, .mcBegin c)
  | .exit => some (c.own, .mcExit c)
  | _ => none

/-- What follows them. -/
def Stage.next : Stage → Stage
  | .begin0 => .begin1
  | .begin1 => .sync1
  | .exit => .done
  | stage => stage

/-- What `client_get_key` and `client_set_key` return for an answer, when none of their assertions fails. -/
def clientReply (node : ServerNode) (op : Op) (msg : Answer) : Option Int :=
  if msg.id = node then
    match op, msg with
    | .get _, .getOk _ data => if data.length = vLength ∧ data.head? = some dollar then some 0 else none
    | .get _, .getFail _ => some (-1)
    | .set _, .setOk _ => some 0
    | .set _, .setFail _ => some (-1)
    | _, _ => none
  else none

/-- The calls that are left: `preload_key` ends with the first one that fails, `bench` asserts that a set does not. -/
def callsLeft (stage : Stage) (op : Op) (todo : List Op) (r : Int) : Option (List Op) :=
  match stage, op with
  | .preload, _ => if r = 0 then some todo else some []
  | _, .set _ => if r = 0 then some todo else none
  | _, .get _ => some todo

/-! ## The system -/

/-- A client rests between two calls, has written a request or a message of `disconnect_mc_server` and not sent it, waits
for an answer, or reads the one it took from a server. -/
inductive Pc where
  | rest
  | sends (node : ServerNode) (op : Op)
  | waits (node : ServerNode) (op : Op)
  | reads (node : ServerNode) (op : Op) (src : ServerNode)
  | controls (node : ServerNode)
  | failed
deriving DecidableEq

/-- A server polls, has taken a message of a client, or has handled it and written the answer. -/
inductive SrvPc where
  | polls
  | took (c : ClientNode)
  | answers (c dst : ClientNode)
  | failed
deriving DecidableEq

/-- `req c s` and `rep s c` have the buffer and the queue of a pair. -/
structure System (hash : List UInt8 → Nat) (slab : Slab) where
  srv : ServerNode → Srv hash slab
  spc : ServerNode → SrvPc
  pc : ClientNode → Pc
  stage : ClientNode → Stage
  todo : ClientNode → List Op
  meeting : Nat
  req : ClientNode → ServerNode → Mailbox Request
  rep : ServerNode → ClientNode → Mailbox Answer

/-- The clients write requests and the messages of `disconnect_mc_server` and go on in their programs, send what they
wrote, take answers and read them. The servers take messages, handle them, and send their answers. -/
inductive Act where
  | call (c : ClientNode)
  | disconnect (c : ClientNode)
  | advance (c : ClientNode)
  | send (c : ClientNode)
  | recv (c : ClientNode) (s : ServerNode)
  | answer (c : ClientNode)
  | take (s : ServerNode) (c : ClientNode)
  | handle (s : ServerNode)
  | reply (s : ServerNode)

/-- A ring takes one entry less than it has slots. -/
def hasRoom {M : Type} (p : Mailbox M) : Bool := p.queue.length + 1 < McShare.msgNum

section
variable {hash : List UInt8 → Nat} {slab : Slab}

def System.init (prog : Program) : System hash slab where
  srv := fun _ => Srv.init
  spc := fun _ => .polls
  pc := fun _ => .rest
  stage := fun c => if c = .c2 then .preload else .sync1
  todo := fun c => if c = .c2 then prog.keys.map .set else prog.trace c
  meeting := 0
  req := fun _ _ => Mailbox.empty
  rep := fun _ _ => Mailbox.empty

def System.onReq (σ : System hash slab) (c : ClientNode) (s : ServerNode) (f : Mailbox Request → Mailbox Request) : System hash slab :=
  { σ with req := fun a b => if a = c ∧ b = s then f (σ.req a b) else σ.req a b }

def System.onRep (σ : System hash slab) (s : ServerNode) (c : ClientNode) (f : Mailbox Answer → Mailbox Answer) : System hash slab :=
  { σ with rep := fun a b => if a = s ∧ b = c then f (σ.rep a b) else σ.rep a b }

def System.setPc (σ : System hash slab) (c : ClientNode) (pc : Pc) : System hash slab := { σ with pc := Function.update σ.pc c pc }

def System.setSpc (σ : System hash slab) (s : ServerNode) (spc : SrvPc) : System hash slab :=
  { σ with spc := Function.update σ.spc s spc }

def System.setSrv (σ : System hash slab) (s : ServerNode) (st : Srv hash slab) : System hash slab :=
  { σ with srv := Function.update σ.srv s st }

def System.setStage (σ : System hash slab) (c : ClientNode) (stage : Stage) : System hash slab :=
  { σ with stage := Function.update σ.stage c stage }

def System.setTodo (σ : System hash slab) (c : ClientNode) (todo : List Op) : System hash slab :=
  { σ with todo := Function.update σ.todo c todo }

/-- The client's program between the messages: `rpc_sync` adds one and waits for the others. -/
def System.advance (prog : Program) (σ : System hash slab) (c : ClientNode) : Option (System hash slab) :=
  match σ.stage c with
  | .preload => if σ.todo c = [] then some ((σ.setStage c .begin0).setTodo c (prog.trace c)) else none
  | .sync1 => some { σ.setStage c .wait1 with meeting := σ.meeting + 1 }
  | .wait1 => if σ.meeting = 2 then some (σ.setStage c .bench) else none
  | .bench => if σ.todo c = [] then some (σ.setStage c .sync2) else none
  | .sync2 => some { σ.setStage c .wait2 with meeting := σ.meeting + 1 }
  | .wait2 => if σ.meeting = 4 then some (σ.setStage c .exit) else none
  | _ => none

/-- `rpc_send`. Without room the assertion behind it fails, but `disconnect_mc_server` has none. -/
def System.rpcSend (σ : System hash slab) (c : ClientNode) : Option (System hash slab) :=
  match σ.pc c with
  | .sends node op =>
    if hasRoom (σ.req c node) then some ((σ.onReq c node Mailbox.send).setPc c (.waits node op)) else some (σ.setPc c .failed)
  | .controls node =>
    let next := (σ.setPc c .rest).setStage c (σ.stage c).next
    if hasRoom (σ.req c node) then some (next.onReq c node Mailbox.send) else some (next.onReq c node Mailbox.drop)
  | _ => none

/-- What a client does with the answer it took. -/
def System.answer (σ : System hash slab) (c : ClientNode) : Option (System hash slab) :=
  match σ.pc c with
  | .reads node op src => do
    let a ← (σ.rep src c).content
    let next := σ.onRep src c fun p => p.read.finish
    match (clientReply node op a).bind (callsLeft (σ.stage c) op (σ.todo c)) with
    | some todo => return (next.setPc c .rest).setTodo c todo
    | none => return next.setPc c .failed
  | _ => none

/-- A turn of `event_loop`, up to the call of `rpc_send`. -/
def System.handle (σ : System hash slab) (s : ServerNode) : Option (System hash slab) :=
  match σ.spc s with
  | .took c => do
    let m ← (σ.req c s).content
    match eventLoop s (σ.srv s) m with
    | (st, none) => return ((σ.onReq c s fun p => p.read.finish).setSrv s st).setSpc s .polls
    | (st, some (dst, a)) =>
      return (((σ.onReq c s Mailbox.read).onRep s dst (Mailbox.write 1 a)).setSrv s st).setSpc s (.answers c dst)
  | _ => none

def System.reply (σ : System hash slab) (s : ServerNode) : Option (System hash slab) :=
  match σ.spc s with
  | .answers c dst =>
    if hasRoom (σ.rep s dst) then some (((σ.onRep s dst Mailbox.send).onReq c s Mailbox.finish).setSpc s .polls)
    else some (σ.setSpc s .failed)
  | _ => none

def System.step (prog : Program) (σ : System hash slab) : Act → Option (System hash slab)
  | .call c => do
    guard (σ.pc c = .rest ∧ (σ.stage c).calls = true)
    match σ.todo c with
    | [] => none
    | op :: rest =>
      return ((σ.onReq c (op.node hash) (Mailbox.write 1 (op.request c))).setPc c (.sends (op.node hash) op)).setTodo c rest
  | .disconnect c => do
    guard (σ.pc c = .rest)
    let (s, m) ← (σ.stage c).disconnect c
    return (σ.onReq c s (Mailbox.write 1 m)).setPc c (.controls s)
  | .advance c => do
    guard (σ.pc c = .rest)
    σ.advance prog c
  | .send c => σ.rpcSend c
  | .recv c s =>
    match σ.pc c with
    | .waits node op => do
      guard ((σ.rep s c).queue ≠ [])
      return (σ.onRep s c Mailbox.recv).setPc c (.reads node op s)
    | _ => none
  | .answer c => σ.answer c
  | .take s c => do
    guard (σ.spc s = .polls ∧ (σ.srv s).e = true ∧ (σ.req c s).queue ≠ [])
    return (σ.onReq c s Mailbox.recv).setSpc s (.took c)
  | .handle s => σ.handle s
  | .reply s => σ.reply s

/-- The states after `n` steps that all meet a condition. -/
inductive Run (prog : Program) (meets : System hash slab → Act → Prop) : Nat → System hash slab → Prop
  | init : Run prog meets 0 (System.init prog)
  | step {n : Nat} {σ σ' : System hash slab} {a : Act} : Run prog meets n σ → meets σ a → σ.step prog a = some σ' → Run prog meets (n + 1) σ'

/-! ## When it goes well -/

/-- Client 2 writes a request or MC_EXIT for a server when its MC_BEGIN has been handled there. -/
def System.begun (σ : System hash slab) (c : ClientNode) (s : ServerNode) : Prop :=
  c = .c2 → σ.stage c = .bench ∨ σ.stage c = .exit → (σ.srv s).loading = false

instance (σ : System hash slab) (c : ClientNode) (s : ServerNode) : Decidable (σ.begun c s) := by
  unfold System.begun
  infer_instance

/-- **The steps that wait for MC_BEGIN**: those of client 2 that write to the buffer where it may still be, and those of a
server that takes MC_EXIT. -/
def System.careful (σ : System hash slab) : Act → Prop
  | .call c =>
    match σ.todo c with
    | [] => True
    | op :: _ => σ.begun c (op.node hash)
  | .disconnect c =>
    match (σ.stage c).disconnect c with
    | none => True
    | some (s, _) => σ.begun c s
  | .take s c =>
    match (σ.req c s).recv.content with
    | some (.mcExit _) => (σ.srv s).loading = false
    | _ => True
  | _ => True

instance (σ : System hash slab) (a : Act) : Decidable (σ.careful a) := by
  unfold System.careful
  split <;> first | infer_instance | (split <;> infer_instance)

end

end BiProject.MpMc
