import BiProject.TwoPc.Boxes
import BiProject.TwoPc.Moves

/-!
# The buffers follow the protocol

The run through the buffers follows one of the protocol in which every message is a value in its queue: a turn of the
protocol is the moment when its answer is sent, the messages in use are the queue, and MC_BEGIN and MC_EXIT are left
out. So the phases of the requests bound what a pair of nodes has under way when one more message is written.
-/

namespace BiProject.TwoPc
set_option autoImplicit false
open BiProject.McServer BiProject.Lib BiProject.Lib.Histories

/-! ## The protocol -/

/-- The messages of `disconnect_mc_server`. -/
def McMsg.isControl : McMsg → Bool
  | .mcBegin _ | .mcExit _ => true
  | _ => false

section
variable {hash : List UInt8 → Nat} {τ τ' : System hash} {ph : Side → Phase} {s : Side} {src dst : Node} {m m' : McMsg}
  {rest : List McMsg} {st st' : Srv hash}

/-- The variables that the protocol has. -/
def Srv.core (st : Srv hash) : Srv hash := { st with loading := true, e := true }

theorem eventLoop_core (s : Side) (st : Srv hash) {m : McMsg} (plain : m.isControl = false) :
    eventLoop s st.core m = (eventLoop s st m).map fun x => (x.1.core, x.2) := by
  cases m with
  | mcBegin id => cases plain
  | mcExit id => cases plain
  | get sender key =>
    by_cases client : sender.isClient = true
    · cases found : st.table.mcGetKeyExt key with
      | none => simp [eventLoop, Srv.core, client, found, bind, Except.bind, pure, Except.pure, Except.map]
      | some data => simp [eventLoop, Srv.core, client, found, bind, Except.bind, pure, Except.pure, Except.map]
    · simp [eventLoop, client, bind, Except.bind, Except.map]
  | set sender key data =>
    by_cases client : sender.isClient = true
    · rcases commit : mcCommit st.logKey key with a | ⟨r, log⟩
      · simp [eventLoop, Srv.core, client, commit, bind, Except.bind, Except.map]
      · by_cases zero : r = 0
        · simp [eventLoop, Srv.core, client, commit, zero, bind, Except.bind, pure, Except.pure, Except.map]
        · simp [eventLoop, Srv.core, client, commit, zero, bind, Except.bind, Except.map]
    · simp [eventLoop, client, bind, Except.bind, Except.map]
  | prepare sender key data =>
    by_cases other : sender = .server (peer s)
    · rcases commit : mcCommit st.logKey key with a | ⟨r, log⟩
      · simp [eventLoop, Srv.core, other, commit, bind, Except.bind, Except.map]
      · by_cases zero : r = 0
        · simp [eventLoop, Srv.core, other, commit, zero, bind, Except.bind, pure, Except.pure, Except.map]
        · simp [eventLoop, Srv.core, other, commit, zero, bind, Except.bind, Except.map]
    · simp [eventLoop, other, bind, Except.bind, Except.map]
  | prepareOk sender key data =>
    by_cases other : sender = .server (peer s)
    · cases update : mcUpdate st.logKey key with
      | error a => simp [eventLoop, Srv.core, other, update, bind, Except.bind, Except.map]
      | ok log => simp [eventLoop, Srv.core, other, update, bind, Except.bind, pure, Except.pure, Except.map]
    · simp [eventLoop, other, bind, Except.bind, Except.map]
  | commit sender key data =>
    by_cases other : sender = .server (peer s)
    · cases update : mcUpdate st.logKey key with
      | error a => simp [eventLoop, Srv.core, other, update, bind, Except.bind, Except.map]
      | ok log => simp [eventLoop, Srv.core, other, update, bind, Except.bind, pure, Except.pure, Except.map]
    · simp [eventLoop, other, bind, Except.bind, Except.map]
  | commitOk sender =>
    by_cases other : sender = .server (peer s)
    · by_cases mine : st.clientId = .client s
      · simp [eventLoop, Srv.core, other, mine, bind, Except.bind, pure, Except.pure, Except.map]
      · simp [eventLoop, Srv.core, other, mine, bind, Except.bind, Except.map]
    · simp [eventLoop, other, bind, Except.bind, Except.map]
  | getOk id data => rfl
  | getFail id => rfl
  | setOk id => rfl

theorem eventLoop_core_ok (s : Side) {out : Option (Node × McMsg)} (plain : m.isControl = false)
    (done : eventLoop s st m = .ok (st', out)) : eventLoop s st.core m = .ok (st'.core, out) := by
  rw [eventLoop_core s st plain, done]
  rfl

theorem bind_eq_ok {ε α β : Type} {x : Except ε α} {f : α → Except ε β} {r : β} :
    (x >>= f) = .ok r ↔ ∃ a, x = .ok a ∧ f a = .ok r := by
  cases x with
  | error e => simp [bind, Except.bind]
  | ok a => simp [bind, Except.bind]

/-- A message of the protocol that is handled is answered, to the node that the handler writes for. -/
theorem eventLoop_target (s : Side) {out : Option (Node × McMsg)} (done : eventLoop s st m = .ok (st', out)) :
    out.map Prod.fst = st.target s m ∧ ∀ x ∈ out, x.2.isControl = false := by
  cases m with
  | get sender key =>
    simp only [eventLoop, bind_eq_ok] at done
    obtain ⟨_, _, done⟩ := done
    split at done
    · cases done
      exact ⟨rfl, by simp [McMsg.isControl]⟩
    · cases done
      exact ⟨rfl, by simp [McMsg.isControl]⟩
  | set sender key data =>
    simp only [eventLoop, bind_eq_ok, Prod.exists] at done
    obtain ⟨_, _, r, log, _, _, _, done⟩ := done
    cases done
    exact ⟨rfl, by simp [McMsg.isControl]⟩
  | prepare sender key data =>
    simp only [eventLoop, bind_eq_ok, Prod.exists] at done
    obtain ⟨_, _, r, log, _, _, _, done⟩ := done
    cases done
    exact ⟨rfl, by simp [McMsg.isControl]⟩
  | prepareOk sender key data =>
    simp only [eventLoop, bind_eq_ok] at done
    obtain ⟨_, _, log, _, done⟩ := done
    cases done
    exact ⟨rfl, by simp [McMsg.isControl]⟩
  | commit sender key data =>
    simp only [eventLoop, bind_eq_ok] at done
    obtain ⟨_, _, log, _, done⟩ := done
    cases done
    exact ⟨rfl, by simp [McMsg.isControl]⟩
  | commitOk sender =>
    simp only [eventLoop, bind_eq_ok] at done
    obtain ⟨_, _, _, _, done⟩ := done
    cases done
    exact ⟨rfl, by simp [McMsg.isControl]⟩
  | _ =>
    cases done
    exact ⟨rfl, by simp [McMsg.isControl]⟩

/-- A turn of the protocol. -/
theorem turn_step (alive : τ.failed (.server s) = none) (running : (τ.srv s).e = true) (queue : τ.chan src (.server s) = m :: rest)
    (done : eventLoop s (τ.srv s) m = .ok (st, some (dst, m'))) :
    τ.step (.turn s src) = some (((τ.setChan src (.server s) rest).setSrv s st).rpcSend (.server s) dst m') := by
  have found : τ.rpcRecv src (.server s) = some (m, τ.setChan src (.server s) rest) := by
    rw [System.rpcRecv, queue]
  simp [System.step, alive, running, guard, found, done]

/-- What a server has under way for the node its handler writes to. -/
theorem Ok.turn_room (ok : Ok τ ph) (queue : τ.chan src (.server s) = m :: rest) (target : (τ.srv s).target s m = some dst) :
    src ≠ .server s ∧ (τ.chan (.server s) dst).length ≤ 1 := by
  cases ok.taken queue with
  | get was =>
    obtain rfl : .client s = dst := by simpa [Srv.target] using target
    simp [ok.rep, was]
  | set was =>
    obtain rfl : .server (peer s) = dst := by simpa [Srv.target] using target
    have short := (ph (peer s)).ans_length s
    rw [(ok.link s).length_eq]
    simpa [was] using short
  | @prepare c k v _ was less =>
    obtain rfl : .server c = dst := by simpa [Srv.target] using target
    have short := (ph (peer c)).own_length (peer c)
    rw [(ok.linkPeer c).length_eq]
    simpa [was] using short
  | prepareOk was less =>
    obtain rfl : .server (peer s) = dst := by simpa [Srv.target] using target
    have short := (ph (peer s)).ans_length s
    rw [(ok.link s).length_eq]
    simpa [was] using short
  | @commit c k v _ was less =>
    obtain rfl : .server c = dst := by simpa [Srv.target] using target
    have short := (ph (peer c)).own_length (peer c)
    rw [(ok.linkPeer c).length_eq]
    simpa [was] using short
  | commitOk was less =>
    obtain rfl : .client s = dst := by simpa [Srv.target, ok.clientId s (by simp [was])] using target
    simp [ok.rep, was]

end

/-! ## The simulation -/

/-- A message of the protocol. -/
def plain : Option McMsg → Bool
  | some m => !m.isControl
  | none => true

/-- How many messages of `disconnect_mc_server` a client may have sent to a node. -/
def Stage.controls (dst : Node) : Stage → Nat
  | .preload | .begin0 => 0
  | .begin1 => if dst = .server node0 then 1 else 0
  | .done => if dst.isClient then 0 else 2
  | _ => if dst.isClient then 0 else 1

section
variable {hash : List UInt8 → Nat} {σ σ' : Buffered hash} {τ τ' : System hash} {n src dst : Node} {s c : Side} {m m' : McMsg}

/-- **The run through the buffers follows one of the protocol.** -/
structure Sim (σ : Buffered hash) (τ : System hash) : Prop where
  boxes : Boxes σ
  reach : Reachable τ
  alive : ∀ s, τ.failed (.server s) = none
  running : ∀ s, (τ.srv s).e = true
  failed : ∀ c, σ.failed (.client c) = none → τ.failed (.client c) = none
  client : ∀ c, τ.client c = if σ.sending (.client c) = none then σ.client c else .idle
  srv : ∀ s, σ.sending (.server s) = none → τ.srv s = (σ.srv s).core
  server : ∀ s dst, σ.sending (.server s) = some dst → ∃ src m m', σ.reading (.server s) = some src ∧
    (σ.box src (.server s)).content = some m ∧ m.isControl = false ∧ (σ.box (.server s) dst).draft = some m' ∧
    eventLoop s (τ.srv s) m = .ok ((σ.srv s).core, some (dst, m'))
  request : ∀ c dst, σ.sending (.client c) = some dst → ∃ m, (σ.box (.client c) dst).draft = some m ∧
    (σ.client c = .idle ∧ (σ.stage c).disconnect c = some (dst, m) ∨ ∃ op : Op, σ.client c = op.pc ∧ dst = .server c ∧ m = op.request c)
  waits : ∀ c, σ.reading (.client c) ≠ none → σ.sending (.client c) = none ∧ σ.client c ≠ .idle
  chan : ∀ src dst, (τ.chan src dst).map some = (σ.box src dst).unfinished.filter plain
  controls : ∀ c dst, (σ.box (.client c) dst).unfinished.countP (fun x => !plain x) ≤ (σ.stage c).controls dst
  servers : ∀ s dst, ∀ x ∈ (σ.box (.server s) dst).unfinished, plain x = true

theorem Sim.init : Sim (Buffered.init : Buffered hash) System.init where
  boxes := Boxes.init
  reach := .init
  alive := fun _ => rfl
  running := fun _ => rfl
  failed := fun _ _ => rfl
  client := fun _ => rfl
  srv := fun _ _ => rfl
  server := fun _ _ sending => by cases sending
  request := fun _ _ sending => by cases sending
  waits := fun _ reading => absurd rfl reading
  chan := fun _ _ => rfl
  controls := fun _ _ => Nat.zero_le _
  servers := fun _ _ _ inside => by cases inside

/-- What a pair has in use, by the queue of the protocol and the other messages. -/
theorem Sim.length_eq (sim : Sim σ τ) (src dst : Node) :
    (σ.box src dst).unfinished.length = (τ.chan src dst).length + (σ.box src dst).unfinished.countP fun x => !plain x := by
  have count := (σ.box src dst).unfinished.length_eq_countP_add_countP plain
  have same := congrArg List.length (sim.chan src dst)
  rw [List.length_map, ← List.countP_eq_length_filter] at same
  rw [count, same]
  simp

theorem Sim.server_length (sim : Sim σ τ) (s : Side) (dst : Node) :
    (σ.box (.server s) dst).unfinished.length = (τ.chan (.server s) dst).length := by
  have none : ((σ.box (.server s) dst).unfinished.countP fun x => !plain x) = 0 := by
    rw [List.countP_eq_zero]
    intro x inside
    simp [sim.servers s dst x inside]
  rw [sim.length_eq, none, Nat.add_zero]

/-- The message a node reads is the first in the queue of the protocol. -/
theorem Sim.head (sim : Sim σ τ) (here : (σ.box src n).content = some m) (other : m.isControl = false) :
    ∃ rest, τ.chan src n = m :: rest ∧ rest.map some = ((σ.box src n).finish.unfinished).filter plain := by
  have chan := sim.chan src n
  rw [Mailbox.unfinished_cons here, List.filter_cons_of_pos (by simp [plain, other])] at chan
  cases queue : τ.chan src n with
  | nil =>
    rw [queue] at chan
    cases chan
  | cons x rest =>
    rw [queue, List.map_cons, List.cons.injEq] at chan
    exact ⟨rest, by rw [Option.some.inj chan.1], chan.2⟩

/-- A client that waits for nothing has no request under way. -/
theorem Sim.idle_chan (sim : Sim σ τ) (idle : τ.client c = .idle) (dst : Node) : τ.chan (.client c) dst = [] := by
  obtain ⟨ph, ok⟩ := reachable_ok sim.reach sim.alive
  have was := Phase.eq_idle (ok.pc c ▸ idle)
  cases dst with
  | client t => exact ok.quiet _ _ fun inside => inside
  | server t =>
    rcases side_cases c t with rfl | rfl
    · rw [ok.req, was]
      rfl
    · exact ok.quiet _ _ (by simp [used])

theorem Sim.ok (sim : Sim σ τ) : ∃ ph, Ok τ ph := reachable_ok sim.reach sim.alive

/-- **A server may write** what its handler answers. -/
theorem Sim.server_room (sim : Sim σ τ) (idle : σ.sending (.server s) = none) (here : (σ.box src (.server s)).content = some m)
    (target : (σ.srv s).target s m = some dst) : src ≠ .server s ∧ (σ.box (.server s) dst).unfinished.length ≤ 1 := by
  obtain ⟨ph, ok⟩ := sim.ok
  have other : m.isControl = false := by
    cases m <;> simp [Srv.target] at target <;> rfl
  obtain ⟨rest, queue, _⟩ := sim.head here other
  rw [sim.server_length]
  refine ok.turn_room queue ?_
  rw [sim.srv s idle]
  cases m <;> exact target

/-- A client that is between two calls has at most one message under way. -/
theorem Sim.client_room (sim : Sim σ τ) (rests : σ.rests c) (unsent : (σ.stage c).controls dst ≤ 1) :
    (σ.box (.client c) dst).unfinished.length ≤ 1 := by
  obtain ⟨_, idle, sending⟩ := rests
  have pc := sim.client c
  rw [if_pos sending, idle] at pc
  have count := sim.controls c dst
  rw [sim.length_eq, sim.idle_chan pc, List.length_nil]
  omega

/-! ## Writing -/

/-- What a write leaves of the boxes. -/
theorem write_box (boxes : Boxes σ) (idle : σ.sending n = none) (room : (σ.box n dst).unfinished.length ≤ 1) (m : McMsg) (a b : Node) :
    ((σ.write n dst m).box a b).unfinished = (σ.box a b).unfinished ∧ ((σ.write n dst m).box a b).content = (σ.box a b).content ∧
      ((σ.write n dst m).box a b).draft = if a = n ∧ b = dst then some m else (σ.box a b).draft := by
  have short : (σ.box n dst).flight.length < 2 := by
    rw [boxes.flight_eq idle]
    omega
  by_cases here : a = n ∧ b = dst
  · obtain ⟨rfl, rfl⟩ := here
    simp only [Buffered.write, setSending_box, onBox_box, and_self, if_true]
    exact ⟨(boxes.ok a b).write_unfinished short m, (boxes.ok a b).write_content short m, Mailbox.write_draft 2 m _⟩
  · simp [Buffered.write, here]

theorem Boxes.congr (boxes : Boxes σ) (box : σ'.box = σ.box) (reading : σ'.reading = σ.reading) (sending : σ'.sending = σ.sending) :
    Boxes σ' := by
  constructor
  · exact fun a b => box ▸ boxes.ok a b
  · exact fun a b => by rw [box, reading]; exact boxes.taken a b
  · exact fun a b => by rw [box, sending]; exact boxes.written a b
  · exact fun a b => by rw [box, reading, sending]; exact boxes.seen a b

/-- A client writes a request, or a message of `disconnect_mc_server`. -/
theorem Sim.write (sim : Sim σ τ) (rests : σ.rests c) (room : (σ.box (.client c) dst).unfinished.length ≤ 1) {pc : Pc}
    (cause : pc = .idle ∧ (σ.stage c).disconnect c = some (dst, m) ∨ ∃ op : Op, pc = op.pc ∧ dst = .server c ∧ m = op.request c) :
    Sim { σ.write (.client c) dst m with client := Function.update σ.client c pc } τ := by
  obtain ⟨_, idle, sending⟩ := rests
  have resting : σ.reading (.client c) = none := by
    by_contra busy
    exact (sim.waits c busy).2 idle
  have kept := write_box sim.boxes sending room m
  constructor
  · exact (sim.boxes.write sending resting room m).congr rfl rfl rfl
  · exact sim.reach
  · exact sim.alive
  · exact sim.running
  · exact sim.failed
  · intro t
    have before := sim.client t
    change τ.client t = if Function.update σ.sending (.client c) (some dst) (.client t) = none then Function.update σ.client c pc t else .idle
    rcases side_cases c t with rfl | rfl
    · simpa [sending, idle] using before
    · simpa using before
  · exact fun s free => sim.srv s (by simpa [Buffered.write] using free)
  · intro s dst' sends
    obtain ⟨src, x, y, reading, content, other, draft, turn⟩ := sim.server s dst' (by simpa [Buffered.write] using sends)
    refine ⟨src, x, y, reading, ?_, other, ?_, turn⟩
    · exact (kept src (.server s)).2.1.trans content
    · exact (kept (.server s) dst').2.2.trans (by simpa using draft)
  · intro t dst' sends
    rcases side_cases c t with rfl | rfl
    · obtain rfl : dst = dst' := by simpa [Buffered.write] using sends
      refine ⟨m, (kept (.client t) dst).2.2.trans (by simp), ?_⟩
      simpa using cause
    · obtain ⟨x, draft, why⟩ := sim.request (peer c) dst' (by simpa [Buffered.write] using sends)
      refine ⟨x, (kept (.client (peer c)) dst').2.2.trans (by simpa using draft), ?_⟩
      simpa using why
  · intro t reading
    rcases side_cases c t with rfl | rfl
    · exact absurd resting reading
    · simpa [Buffered.write] using sim.waits (peer c) reading
  · intro a b
    exact (sim.chan a b).trans (congrArg (List.filter plain) (kept a b).1.symm)
  · intro t b
    exact (congrArg (List.countP fun x => !plain x) (kept (.client t) b).1).trans_le (sim.controls t b)
  · intro s b x inside
    exact sim.servers s b x ((kept (.server s) b).1 ▸ inside)

/-- A server handles a message of the protocol. -/
theorem Sim.handle (sim : Sim σ τ) (idle : σ.sending (.server s) = none) (reading : σ.reading (.server s) = some src)
    (here : (σ.box src (.server s)).content = some m) {st : Srv hash} (done : eventLoop s (σ.srv s) m = .ok (st, some (dst, m'))) :
    Sim (((σ.onBox src (.server s) Mailbox.read).write (.server s) dst m').setSrv s st) τ := by
  have target : (σ.srv s).target s m = some dst := by
    rw [← (eventLoop_target s done).1]
    rfl
  have other : m.isControl = false := by
    cases m <;> simp [Srv.target] at target <;> rfl
  obtain ⟨apart, room⟩ := sim.server_room idle here target
  have boxes := sim.boxes.handle idle reading apart room m'
  -- the write and the reading leave the messages in use
  have kept : ∀ a b, (((σ.onBox src (.server s) Mailbox.read).write (.server s) dst m').box a b).unfinished = (σ.box a b).unfinished ∧
      (((σ.onBox src (.server s) Mailbox.read).write (.server s) dst m').box a b).content = (σ.box a b).content ∧
      (((σ.onBox src (.server s) Mailbox.read).write (.server s) dst m').box a b).draft =
        if a = .server s ∧ b = dst then some m' else (σ.box a b).draft := by
    intro a b
    have written := write_box sim.boxes idle room m' a b
    simp only [Buffered.write, setSending_box, onBox_box] at written ⊢
    by_cases first : a = .server s ∧ b = dst
    · obtain ⟨rfl, rfl⟩ := first
      simpa [Ne.symm apart] using written
    · by_cases second : a = src ∧ b = .server s
      · obtain ⟨rfl, rfl⟩ := second
        simp [apart]
        exact ⟨rfl, rfl, rfl⟩
      · simp [first, second]
  constructor
  · exact boxes.congr rfl rfl rfl
  · exact sim.reach
  · exact sim.alive
  · exact sim.running
  · exact sim.failed
  · intro t
    simpa [Buffered.write] using sim.client t
  · intro t free
    have differ : t ≠ s := by
      rintro rfl
      simp [Buffered.write] at free
    simpa [Buffered.write, differ] using sim.srv t (by simpa [Buffered.write, differ] using free)
  · intro t dst' sends
    by_cases same : t = s
    · subst same
      obtain rfl : dst = dst' := by simpa [Buffered.write] using sends
      refine ⟨src, m, m', reading, (kept src (.server t)).2.1.trans here, other, (kept (.server t) dst).2.2.trans (by simp), ?_⟩
      rw [sim.srv t idle]
      simpa using eventLoop_core_ok t other done
    · obtain ⟨src', x, y, reads, content, notControl, draft, turn⟩ := sim.server t dst' (by simpa [Buffered.write, same] using sends)
      refine ⟨src', x, y, reads, (kept src' (.server t)).2.1.trans content, notControl, ?_, by simpa [same] using turn⟩
      exact (kept (.server t) dst').2.2.trans (by simpa [same] using draft)
  · intro t dst' sends
    obtain ⟨x, draft, why⟩ := sim.request t dst' (by simpa [Buffered.write] using sends)
    exact ⟨x, (kept (.client t) dst').2.2.trans (by simpa using draft), why⟩
  · intro t reads
    simpa [Buffered.write] using sim.waits t reads
  · intro a b
    exact (sim.chan a b).trans (congrArg (List.filter plain) (kept a b).1.symm)
  · intro t b
    exact (congrArg (List.countP fun x => !plain x) (kept (.client t) b).1).trans_le (sim.controls t b)
  · intro t b x inside
    exact sim.servers t b x ((kept (.server t) b).1 ▸ inside)

/-! ## Taking and handling -/

/-- A node takes a message from a queue. -/
theorem Sim.recv (sim : Sim σ τ) (polls : σ.polls n) (more : (σ.box src n).queue ≠ []) :
    Sim ((σ.onBox src n Mailbox.recv).setReading n (some src)) τ := by
  obtain ⟨_, resting, idle, kind⟩ := polls
  have unfinished : ∀ a b, ((σ.onBox src n Mailbox.recv).box a b).unfinished = (σ.box a b).unfinished := by
    intro a b
    rw [onBox_box]
    split
    · rename_i here
      obtain ⟨rfl, rfl⟩ := here
      exact Mailbox.recv_unfinished (sim.boxes.taken_none resting a)
    · rfl
  have draft : ∀ a b, ((σ.onBox src n Mailbox.recv).box a b).draft = (σ.box a b).draft := by
    intro a b
    rw [onBox_box]
    split <;> rfl
  constructor
  · exact sim.boxes.recv idle resting more
  · exact sim.reach
  · exact sim.alive
  · exact sim.running
  · exact sim.failed
  · exact sim.client
  · exact sim.srv
  · intro s dst sends
    have differ : .server s ≠ n := by
      rintro rfl
      rw [show σ.sending (.server s) = some dst from sends] at idle
      cases idle
    obtain ⟨src', x, y, reading, content, other, drafted, turn⟩ := sim.server s dst sends
    refine ⟨src', x, y, by simpa [differ] using reading, ?_, other, (draft (.server s) dst).trans drafted, turn⟩
    simpa [differ] using content
  · intro c dst sends
    obtain ⟨x, drafted, why⟩ := sim.request c dst sends
    exact ⟨x, (draft (.client c) dst).trans drafted, why⟩
  · intro c reading
    by_cases same : .client c = n
    · subst same
      exact ⟨idle, kind⟩
    · exact sim.waits c (by simpa [same] using reading)
  · intro a b
    exact (sim.chan a b).trans (congrArg (List.filter plain) (unfinished a b).symm)
  · intro c b
    exact (congrArg (List.countP fun x => !plain x) (unfinished (.client c) b)).trans_le (sim.controls c b)
  · intro s b x inside
    exact sim.servers s b x (unfinished (.server s) b ▸ inside)

theorem finish_box (src dst : Node) (a b : Node) :
    ((σ.onBox src dst fun p => p.read.finish).box a b).draft = (σ.box a b).draft ∧
      ((σ.onBox src dst fun p => p.read.finish).box a b).unfinished =
        if a = src ∧ b = dst then (σ.box src dst).finish.unfinished else (σ.box a b).unfinished := by
  by_cases here : a = src ∧ b = dst
  · obtain ⟨rfl, rfl⟩ := here
    simp only [onBox_box, and_self, if_true]
    exact ⟨rfl, rfl⟩
  · simp [here]

/-- A server handles MC_BEGIN or MC_EXIT. -/
theorem Sim.control (sim : Sim σ τ) (idle : σ.sending (.server s) = none) (reading : σ.reading (.server s) = some src)
    (here : (σ.box src (.server s)).content = some m) {st : Srv hash} (done : eventLoop s (σ.srv s) m = .ok (st, none)) :
    Sim (((σ.onBox src (.server s) fun p => p.read.finish).setReading (.server s) none).setSrv s st) τ := by
  obtain ⟨ph, ok⟩ := sim.ok
  have control : m.isControl = true := by
    by_contra other
    rw [Bool.not_eq_true] at other
    obtain ⟨rest, queue, _⟩ := sim.head here other
    have target := (eventLoop_target s done).1
    cases ok.taken queue <;> simp [Srv.target] at target
  have core : st.core = (σ.srv s).core := by
    cases m <;> simp [McMsg.isControl] at control <;> cases done <;> rfl
  have split := Mailbox.unfinished_cons here
  have box := finish_box (σ := σ) src (.server s)
  constructor
  · exact (sim.boxes.finish idle reading).congr rfl rfl rfl
  · exact sim.reach
  · exact sim.alive
  · exact sim.running
  · exact sim.failed
  · exact sim.client
  · intro t free
    by_cases same : t = s
    · subst same
      simpa [core] using sim.srv t free
    · simpa [same] using sim.srv t free
  · intro t dst sends
    have differ : t ≠ s := by
      rintro rfl
      rw [show σ.sending (.server t) = some dst from sends] at idle
      cases idle
    obtain ⟨src', x, y, reads, content, other, drafted, turn⟩ := sim.server t dst sends
    refine ⟨src', x, y, by simpa [differ] using reads, ?_, other, (box (.server t) dst).1.trans drafted, by simpa [differ] using turn⟩
    simpa [differ] using content
  · intro c dst sends
    obtain ⟨x, drafted, why⟩ := sim.request c dst sends
    exact ⟨x, (box (.client c) dst).1.trans drafted, why⟩
  · intro c reads
    exact sim.waits c (by simpa using reads)
  · intro a b
    rw [sim.chan]
    change _ = List.filter plain (((σ.onBox src (.server s) fun p => p.read.finish).box a b).unfinished)
    rw [(box a b).2]
    split
    · rename_i place
      rw [place.1, place.2, split, List.filter_cons_of_neg (by simp [plain, control])]
    · rfl
  · intro c b
    have bound := sim.controls c b
    change List.countP _ (((σ.onBox src (.server s) fun p => p.read.finish).box (.client c) b).unfinished) ≤ _
    rw [(box (.client c) b).2]
    split
    · rename_i place
      obtain ⟨same, rfl⟩ := place
      rw [same, split, List.countP_cons] at bound
      exact Nat.le_trans (Nat.le_add_right _ _) bound
    · exact bound
  · intro t b x inside
    change x ∈ (((σ.onBox src (.server s) fun p => p.read.finish).box (.server t) b).unfinished) at inside
    rw [(box (.server t) b).2] at inside
    split at inside
    · rename_i place
      refine sim.servers t b x ?_
      rw [place.1, place.2, split]
      exact List.mem_cons_of_mem _ inside
    · exact sim.servers t b x inside

theorem reply_step (alive : τ.failed (.client c) = none) (busy : τ.client c ≠ .idle) {rest : List McMsg}
    (queue : τ.chan src (.client c) = m :: rest) :
    τ.step (.reply c src) = some (match clientReply c (τ.client c) m with
      | .error a => (τ.setChan src (.client c) rest).fail (.client c) a
      | .ok r => (τ.setChan src (.client c) rest).ret c r) := by
  have found : τ.rpcRecv src (.client c) = some (m, τ.setChan src (.client c) rest) := by
    rw [System.rpcRecv, queue]
  cases reply : clientReply c (τ.client c) m with
  | error a => simp [System.step, alive, busy, guard, found, reply]
  | ok r => simp [System.step, alive, busy, guard, found, reply]

/-- A client finds only messages of the protocol. -/
theorem Sim.answer_plain (sim : Sim σ τ) (here : (σ.box src (.client c)).content = some m) : m.isControl = false := by
  have split := Mailbox.unfinished_cons here
  cases src with
  | server s =>
    have ordinary := sim.servers s (.client c) (some m) (by rw [split]; exact List.mem_cons_self)
    simpa [plain] using ordinary
  | client t =>
    have none := sim.controls t (.client c)
    have zero : (σ.stage t).controls (.client c) = 0 := by
      cases σ.stage t <;> simp [Stage.controls, Node.isClient]
    rw [zero, split, List.countP_cons] at none
    by_contra control
    rw [Bool.not_eq_false] at control
    simp [plain, control] at none

/-- A message that is put out was under way, -/
theorem Sim.controls_after (sim : Sim σ τ) {x : Option McMsg} {l : List (Option McMsg)} (split : (σ.box src dst).unfinished = x :: l)
    (t : Side) (b : Node) :
    (if .client t = src ∧ b = dst then l else (σ.box (.client t) b).unfinished).countP (fun x => !plain x) ≤ (σ.stage t).controls b := by
  have bound := sim.controls t b
  split
  · rename_i place
    obtain ⟨rfl, rfl⟩ := place
    rw [split, List.countP_cons] at bound
    exact Nat.le_trans (Nat.le_add_right _ _) bound
  · exact bound

/-- and the others are as before. -/
theorem Sim.servers_after (sim : Sim σ τ) {x y : Option McMsg} {l : List (Option McMsg)} (split : (σ.box src dst).unfinished = x :: l)
    {t : Side} {b : Node} (inside : y ∈ if .server t = src ∧ b = dst then l else (σ.box (.server t) b).unfinished) : plain y = true := by
  split at inside
  · rename_i place
    obtain ⟨rfl, rfl⟩ := place
    refine sim.servers t b y ?_
    rw [split]
    exact List.mem_cons_of_mem _ inside
  · exact sim.servers t b y inside

/-- A client has its answer. -/
theorem Sim.answer (sim : Sim σ τ) (healthy : σ.failed (.client c) = none) (reading : σ.reading (.client c) = some src)
    (here : (σ.box src (.client c)).content = some m) {r : Res} (done : clientReply c (σ.client c) m = .ok r) :
    ∃ τ', Sim { (σ.onBox src (.client c) fun p => p.read.finish).setReading (.client c) none with
      client := Function.update σ.client c .idle } τ' := by
  obtain ⟨idle, busy⟩ := sim.waits c (by simp [reading])
  obtain ⟨rest, queue, less⟩ := sim.head here (sim.answer_plain here)
  have pc : τ.client c = σ.client c := by
    rw [sim.client, if_pos idle]
  have step := reply_step (sim.failed c healthy) (pc ▸ busy) queue
  rw [pc, done] at step
  have split := Mailbox.unfinished_cons here
  have box := finish_box (σ := σ) src (.client c)
  refine ⟨(τ.setChan src (.client c) rest).ret c r, ?_⟩
  constructor
  · exact (sim.boxes.finish idle reading).congr rfl rfl rfl
  · exact sim.reach.step trivial step
  · exact sim.alive
  · exact sim.running
  · exact sim.failed
  · intro t
    have before := sim.client t
    change Function.update τ.client c .idle t = if σ.sending (.client t) = none then Function.update σ.client c .idle t else .idle
    by_cases same : t = c
    · subst same
      simp
    · simpa [same] using before
  · exact sim.srv
  · intro s dst sends
    obtain ⟨src', x, y, reads, content, other, drafted, turn⟩ := sim.server s dst sends
    refine ⟨src', x, y, by simpa using reads, ?_, other, (box (.server s) dst).1.trans drafted, turn⟩
    simpa using content
  · intro t dst sends
    have differ : t ≠ c := by
      rintro rfl
      rw [show σ.sending (.client t) = some dst from sends] at idle
      cases idle
    obtain ⟨x, drafted, why⟩ := sim.request t dst sends
    exact ⟨x, (box (.client t) dst).1.trans drafted, by simpa [differ] using why⟩
  · intro t reads
    have differ : t ≠ c := by
      rintro rfl
      simp at reads
    have waits := sim.waits t (by simpa [differ] using reads)
    exact ⟨waits.1, by simpa [differ] using waits.2⟩
  · intro a b
    change List.map some (if a = src ∧ b = .client c then rest else τ.chan a b) =
      List.filter plain (((σ.onBox src (.client c) fun p => p.read.finish).box a b).unfinished)
    rw [(box a b).2]
    split
    · exact less
    · exact sim.chan a b
  · intro t b
    change List.countP _ (((σ.onBox src (.client c) fun p => p.read.finish).box (.client t) b).unfinished) ≤ _
    rw [(box (.client t) b).2]
    exact sim.controls_after split t b
  · intro s b x inside
    change x ∈ (((σ.onBox src (.client c) fun p => p.read.finish).box (.server s) b).unfinished) at inside
    rw [(box (.server s) b).2] at inside
    exact sim.servers_after split inside

/-! ## Sending -/

theorem room_of_few (few : (σ.box n dst).queue.length ≤ 3) : σ.room n dst = true := by
  apply decide_eq_true
  unfold McShare.msgNum
  omega

/-- The boxes after a server has sent its answer and put out the message it answers. -/
theorem turn_box (apart : src ≠ .server s) (drafted : (σ.box (.server s) dst).draft = some m') (a b : Node) :
    (((σ.onBox (.server s) dst Mailbox.send).onBox src (.server s) Mailbox.finish).box a b).unfinished =
        (if a = .server s ∧ b = dst then (σ.box (.server s) dst).unfinished ++ [some m'] else
          if a = src ∧ b = .server s then (σ.box src (.server s)).finish.unfinished else (σ.box a b).unfinished) ∧
      (a ≠ .server s →
        (((σ.onBox (.server s) dst Mailbox.send).onBox src (.server s) Mailbox.finish).box a b).draft = (σ.box a b).draft) ∧
      (b ≠ .server s →
        (((σ.onBox (.server s) dst Mailbox.send).onBox src (.server s) Mailbox.finish).box a b).content = (σ.box a b).content) := by
  refine ⟨?_, ?_, ?_⟩
  · by_cases first : a = .server s ∧ b = dst
    · obtain ⟨rfl, rfl⟩ := first
      simpa [Ne.symm apart] using Mailbox.send_unfinished drafted
    · by_cases second : a = src ∧ b = .server s
      · obtain ⟨rfl, rfl⟩ := second
        simp [apart]
      · simp [first, second]
  · intro source
    simp only [onBox_box, source, false_and, if_false]
    split <;> rfl
  · intro place
    simp only [onBox_box, place, and_false, if_false]
    split <;> rfl

/-- **A server sends its answer**: this is the turn of the protocol. -/
theorem Sim.turn (sim : Sim σ τ) (sending : σ.sending (.server s) = some dst) :
    σ.room (.server s) dst = true ∧ ∃ τ', Sim ((σ.onBox (.server s) dst Mailbox.send).turnDone s) τ' := by
  obtain ⟨ph, ok⟩ := sim.ok
  obtain ⟨src, m, m', reading, here, other, drafted, turn⟩ := sim.server s dst sending
  obtain ⟨rest, queue, less⟩ := sim.head here other
  have target : (τ.srv s).target s m = some dst := by
    rw [← (eventLoop_target s turn).1]
    rfl
  obtain ⟨apart, few⟩ := ok.turn_room queue target
  have step := turn_step (sim.alive s) (sim.running s) queue turn
  have inner : ((τ.setChan src (.server s) rest).setSrv s (σ.srv s).core).chan (.server s) dst = τ.chan (.server s) dst := by
    simp [Ne.symm apart]
  rw [rpcSend_eq (by rw [inner]; exact few), inner] at step
  have short := (σ.box (.server s) dst).queue_length_le
  rw [sim.server_length] at short
  have room : σ.room (.server s) dst = true := room_of_few (by omega)
  have after : (σ.onBox (.server s) dst Mailbox.send).turnDone s =
      (((σ.onBox (.server s) dst Mailbox.send).onBox src (.server s) Mailbox.finish).setReading (.server s) none).setSending (.server s)
        none := by
    simp [Buffered.turnDone, reading]
  have split := Mailbox.unfinished_cons here
  have box := turn_box apart drafted
  have ordinary : plain (some m') = true := by
    simpa [plain] using (eventLoop_target s turn).2
  refine ⟨room, ((τ.setChan src (.server s) rest).setSrv s (σ.srv s).core).setChan (.server s) dst (τ.chan (.server s) dst ++ [m']), ?_⟩
  rw [after]
  constructor
  · exact sim.boxes.turn sending reading apart
  · exact sim.reach.step trivial step
  · exact sim.alive
  · intro t
    by_cases same : t = s
    · subst same
      simp [Srv.core]
    · simpa [same] using sim.running t
  · exact sim.failed
  · intro t
    simpa using sim.client t
  · intro t free
    by_cases same : t = s
    · subst same
      simp
    · simpa [same] using sim.srv t (by simpa [same] using free)
  · intro t dst' sends
    have differ : t ≠ s := by
      rintro rfl
      simp at sends
    obtain ⟨src', x, y, reads, read, notControl, written, answer⟩ := sim.server t dst' (by simpa [differ] using sends)
    refine ⟨src', x, y, by simpa [differ] using reads, ?_, notControl, ?_, by simpa [differ] using answer⟩
    · exact ((box src' (.server t)).2.2 (by simpa using differ)).trans read
    · exact ((box (.server t) dst').2.1 (by simpa using differ)).trans written
  · intro t dst' sends
    obtain ⟨x, written, why⟩ := sim.request t dst' (by simpa using sends)
    exact ⟨x, ((box (.client t) dst').2.1 (by simp)).trans written, why⟩
  · intro t reads
    simpa using sim.waits t (by simpa using reads)
  · intro a b
    change List.map some (if a = .server s ∧ b = dst then τ.chan (.server s) dst ++ [m'] else
        if a = src ∧ b = .server s then rest else τ.chan a b) = List.filter plain _
    refine Eq.trans ?_ (congrArg (List.filter plain) (box a b).1.symm)
    split
    · rw [List.map_append, sim.chan (.server s) dst, List.filter_append]
      simp [ordinary]
    · split
      · exact less
      · exact sim.chan a b
  · intro t b
    refine (congrArg (List.countP fun x => !plain x) (box (.client t) b).1).trans_le ?_
    simp only [reduceCtorEq, false_and, if_false]
    exact sim.controls_after split t b
  · intro t b x inside
    have inside : x ∈ (((σ.onBox (.server s) dst Mailbox.send).onBox src (.server s) Mailbox.finish).box (.server t) b).unfinished := inside
    rw [(box (.server t) b).1] at inside
    split at inside
    · rcases List.mem_append.mp inside with old | new
      · exact sim.servers s dst x old
      · rw [List.mem_singleton.mp new]
        exact ordinary
    · exact sim.servers_after split inside

/-- The request a client makes of the protocol. -/
def Op.act (c : Side) : Op → Act
  | .get k => .get c k
  | .set k v => .set c k v

theorem call_step (op : Op) (alive : τ.failed (.client c) = none) (idle : τ.client c = .idle) :
    τ.step (op.act c) = some ((τ.call c op op.pc).rpcSend (.client c) (.server c) (op.request c)) := by
  cases op with
  | get k => simp [System.step, Op.act, alive, idle, guard, Op.pc, Op.request]
  | set k v => simp [System.step, Op.act, alive, idle, guard, Op.pc, Op.request]

theorem Stage.controls_le (stage : Stage) (dst : Node) : stage.controls dst ≤ 2 := by
  cases stage <;> grind [Stage.controls]

/-- What a client that has not sent its message yet may have under way. -/
theorem Sim.client_queue (sim : Sim σ τ) (sending : σ.sending (.client c) = some dst) :
    τ.client c = .idle ∧ σ.room (.client c) dst = true := by
  have pc : τ.client c = .idle := by
    rw [sim.client]
    simp [sending]
  have most := (σ.stage c).controls_le dst
  have count := sim.controls c dst
  have short := (σ.box (.client c) dst).queue_length_le
  rw [sim.length_eq, sim.idle_chan pc, List.length_nil] at short
  exact ⟨pc, room_of_few (by omega)⟩

/-- The boxes after a client has sent its message. -/
theorem send_box (drafted : (σ.box n dst).draft = some m) (a b : Node) :
    ((σ.onBox n dst Mailbox.send).box a b).unfinished =
        (if a = n ∧ b = dst then (σ.box n dst).unfinished ++ [some m] else (σ.box a b).unfinished) ∧
      ((σ.onBox n dst Mailbox.send).box a b).content = (σ.box a b).content ∧
      (a ≠ n → ((σ.onBox n dst Mailbox.send).box a b).draft = (σ.box a b).draft) := by
  by_cases here : a = n ∧ b = dst
  · obtain ⟨rfl, rfl⟩ := here
    simp only [onBox_box, and_self, if_true]
    exact ⟨Mailbox.send_unfinished drafted, rfl, fun differ => absurd rfl differ⟩
  · simp [here]

/-- A client sends what it has written, and the protocol follows. -/
theorem Sim.send (sim : Sim σ τ) (sending : σ.sending (.client c) = some dst) (drafted : (σ.box (.client c) dst).draft = some m)
    (reach : Reachable τ') (srv : τ'.srv = τ.srv) (failed : τ'.failed = τ.failed)
    (client : τ'.client = Function.update τ.client c (σ.client c))
    (chan : ∀ a b, (τ'.chan a b).map some = if a = .client c ∧ b = dst then (τ.chan a b).map some ++ [some m].filter plain
      else (τ.chan a b).map some)
    {stage : Stage} (now : stage = if σ.client c = .idle then (σ.stage c).next else σ.stage c)
    (controls : ∀ b, ((σ.box (.client c) b).unfinished ++ if b = dst then [some m] else []).countP (fun x => !plain x) ≤ stage.controls b) :
    Sim ((σ.onBox (.client c) dst Mailbox.send).sendDone c) τ' := by
  have resting : σ.reading (.client c) = none := by
    by_contra busy
    rw [(sim.waits c busy).1] at sending
    cases sending
  have box := send_box drafted
  have stages : ((σ.onBox (.client c) dst Mailbox.send).sendDone c).stage = Function.update σ.stage c stage := by
    rw [now]
    rfl
  have sends' : ((σ.onBox (.client c) dst Mailbox.send).sendDone c).sending = Function.update σ.sending (.client c) none := rfl
  constructor
  · exact (sim.boxes.send sending resting).congr rfl rfl rfl
  · exact reach
  · rw [failed]
    exact sim.alive
  · rw [srv]
    exact sim.running
  · rw [failed]
    exact sim.failed
  · intro t
    rw [client, sends']
    have before := sim.client t
    change _ = if _ then σ.client t else _
    by_cases same : t = c
    · subst same
      simp
    · simpa [same] using before
  · rw [srv]
    intro s free
    exact sim.srv s (by simpa [sends'] using free)
  · intro s dst' sends
    obtain ⟨src, x, y, reading, content, other, written, turn⟩ := sim.server s dst' (by simpa [sends'] using sends)
    rw [srv]
    exact ⟨src, x, y, reading, (box src (.server s)).2.1.trans content, other, ((box (.server s) dst').2.2 (by simp)).trans written, turn⟩
  · intro t dst' sends
    have differ : t ≠ c := by
      rintro rfl
      simp [sends'] at sends
    obtain ⟨x, written, why⟩ := sim.request t dst' (by simpa [sends', differ] using sends)
    refine ⟨x, ((box (.client t) dst').2.2 (by simpa using differ)).trans written, ?_⟩
    rw [stages, Function.update_of_ne differ]
    exact why
  · intro t reading
    have waits := sim.waits t reading
    by_cases same : t = c
    · subst same
      exact absurd resting reading
    · exact ⟨by simpa [sends', same] using waits.1, waits.2⟩
  · intro a b
    refine Eq.trans ?_ (congrArg (List.filter plain) (box a b).1.symm)
    rw [chan]
    split
    · rename_i here
      rw [here.1, here.2, sim.chan, List.filter_append]
    · exact sim.chan a b
  · intro t b
    rw [stages]
    refine (congrArg (List.countP fun x => !plain x) (box (.client t) b).1).trans_le ?_
    by_cases same : t = c
    · subst same
      have bound := controls b
      rw [Function.update_self]
      by_cases here : b = dst
      · subst here
        simpa using bound
      · simpa [here] using bound
    · simpa [same] using sim.controls t b
  · intro s b x inside
    refine sim.servers s b x ?_
    have same := (box (.server s) b).1
    simp only [reduceCtorEq, false_and, if_false] at same
    exact same ▸ inside

theorem Stage.controls_next {stage : Stage} (cause : stage.disconnect c = some (dst, m)) (b : Node) :
    stage.controls b + (if b = dst then 1 else 0) ≤ stage.next.controls b := by
  cases stage <;> simp [Stage.disconnect] at cause <;> obtain ⟨rfl, _⟩ := cause <;> grind [Stage.controls, Stage.next, Node.isClient]

/-- A client sends a message of `disconnect_mc_server`. -/
theorem Sim.sendControl (sim : Sim σ τ) (sending : σ.sending (.client c) = some dst) (drafted : (σ.box (.client c) dst).draft = some m)
    (idle : σ.client c = .idle) (cause : (σ.stage c).disconnect c = some (dst, m)) :
    Sim ((σ.onBox (.client c) dst Mailbox.send).sendDone c) τ := by
  have control : plain (some m) = false := by
    cases now : σ.stage c <;> simp [Stage.disconnect, now] at cause <;> obtain ⟨_, rfl⟩ := cause <;> rfl
  refine sim.send sending drafted sim.reach rfl rfl ?_ ?_ rfl ?_
  · rw [idle, ← (sim.client_queue sending).1, Function.update_eq_self]
  · intro a b
    simp [control]
  · intro b
    have bound := sim.controls c b
    have next := Stage.controls_next cause b
    rw [if_pos idle, List.countP_append]
    by_cases here : b = dst
    · rw [if_pos here] at next
      have one : ([some m].countP fun x => !plain x) = 1 := by simp [control]
      rw [if_pos here, one]
      omega
    · rw [if_neg here] at next
      rw [if_neg here, List.countP_nil]
      omega

/-- **A client sends its request.** -/
theorem Sim.sendRequest (sim : Sim σ τ) (healthy : σ.failed (.client c) = none) (sending : σ.sending (.client c) = some (.server c))
    {op : Op} (drafted : (σ.box (.client c) (.server c)).draft = some (op.request c)) (pc : σ.client c = op.pc) :
    ∃ τ', Sim ((σ.onBox (.client c) (.server c) Mailbox.send).sendDone c) τ' := by
  obtain ⟨idle, _⟩ := sim.client_queue sending
  have step := call_step op (sim.failed c healthy) idle
  have none := sim.idle_chan idle (.server c)
  rw [rpcSend_eq (by simpa [System.call] using none ▸ Nat.zero_le 1)] at step
  have ordinary : plain (some (op.request c)) = true := by
    cases op <;> rfl
  have busy : σ.client c ≠ .idle := by
    rw [pc]
    cases op <;> simp [Op.pc]
  refine ⟨_, sim.send sending drafted (sim.reach.step trivial step) rfl rfl ?_ ?_ rfl ?_⟩
  · rw [pc]
    rfl
  · intro a b
    by_cases here : a = .client c ∧ b = .server c
    · obtain ⟨rfl, rfl⟩ := here
      simp [System.call, ordinary]
    · simp [System.call, here]
  · intro b
    have bound := sim.controls c b
    rw [if_neg busy, List.countP_append]
    split
    · simpa [ordinary] using bound
    · simpa using bound

end

end BiProject.TwoPc
