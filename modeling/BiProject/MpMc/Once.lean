import BiProject.MpMc.Links

/-!
# The pairs along a run

What every state has as long as client 2 and the servers wait for MC_BEGIN where the buffer or the end of a server
depends on it: each pair of nodes has at most one message under way, and MC_BEGIN and MC_EXIT are due from the time they
are sent until they are handled.
-/

namespace BiProject.MpMc
set_option autoImplicit false
open BiProject.McServer BiProject.Lib

/-- MC_BEGIN has been sent to a server. -/
def Stage.after : Stage → ServerNode → Bool
  | .preload, _ | .begin0, _ | .begin1, .s1 => false
  | _, _ => true

/-- How often a client has added one in `rpc_sync`. -/
def Stage.syncs : Stage → Nat
  | .preload | .begin0 | .begin1 | .sync1 => 0
  | .wait1 | .bench | .sync2 => 1
  | .wait2 | .exit | .done => 2

def Stage.leaves : Stage → Bool
  | .exit | .done => true
  | _ => false

def Pc.calling : Pc → Bool
  | .sends _ _ | .waits _ _ | .reads _ _ _ => true
  | _ => false

theorem own_inj {c d : ClientNode} (same : c.own = d.own) : c = d := by
  cases c <;> cases d <;> first | rfl | cases same

section
variable {hash : List UInt8 → Nat} {slab : Slab}

/-- What a client has sent to a server and the server has to handle before anything else of the client: MC_BEGIN while it
is loading, and MC_EXIT while it runs. -/
def System.due (σ : System hash slab) (c : ClientNode) (s : ServerNode) : Option Request :=
  if c = .c2 ∧ (σ.stage c).after s = true ∧ (σ.srv s).loading = true then some (.mcBegin c)
  else if c.own = s ∧ σ.stage c = .done ∧ (σ.srv s).e = true then some (.mcExit c)
  else none

/-- **The system is well**: every pair is, and the programs of the clients tell what the servers are waiting for. -/
structure Ok (σ : System hash slab) : Prop where
  pair : ∀ c s, Pair c s (σ.due c s) ((σ.stage c).disconnect c) ((σ.pc c).toward s) ((σ.spc s).toward c) (σ.req c s) (σ.rep s c)
  calls : ∀ c, (σ.pc c).calling = true → (σ.stage c).calls = true
  meeting : σ.meeting = (σ.stage .c2).syncs + (σ.stage .c3).syncs
  synced : ∀ c, (σ.stage c).leaves = true → ∀ d, (σ.stage d).syncs = 2
  begun : ∀ s, (σ.srv s).loading = false → (σ.stage .c2).after s = true
  late : ∀ s, (σ.stage .c3).after s = true
  stopped : ∀ s, (σ.srv s).e = false → (σ.srv s).loading = false ∧ ∀ c, c.own = s → σ.stage c = .done
  leaving : ∀ s c id, (σ.spc s).toward c = some (.took c) → (σ.req c s).content = some (.mcExit id) → (σ.srv s).loading = false
  exits : σ.stage .c2 = .done ∨ (σ.stage .c2 = .exit ∧ σ.pc .c2 ≠ .rest) → (σ.srv .s0).loading = false
  healthy : ∀ s, σ.spc s ≠ .failed

variable {prog : Program} {σ σ' : System hash slab} {c d : ClientNode} {s t : ServerNode}

theorem Ok.init : Ok (System.init prog : System hash slab) := by
  constructor
  · intro c s
    have nothing : (System.init prog : System hash slab).due c s = none := by
      cases c <;> simp [System.due, System.init, Stage.after]
    rw [nothing]
    exact ⟨.empty, .empty, .quiet rfl rfl rfl, .nil⟩
  · intro c calling
    simp [System.init, Pc.calling] at calling
  · rfl
  · intro c leaves
    cases c <;> simp [System.init, Stage.leaves] at leaves
  · intro s ready
    simp [System.init, Srv.init, Srv.loading, Cache.init, serverInit] at ready
  · intro s
    rfl
  · intro s ended
    simp [System.init, Srv.init] at ended
  · intro s c id took
    simp [System.init, SrvPc.toward] at took
  · simp [System.init]
  · intro s
    simp [System.init]

/-! ## Steps of one pair -/

/-- One pair does something, and the servers' flags and the clients' programs stay as they are. -/
structure Moves (c : ClientNode) (s : ServerNode) (σ σ' : System hash slab) : Prop where
  loading : ∀ t, (σ'.srv t).loading = (σ.srv t).loading
  e : ∀ t, (σ'.srv t).e = (σ.srv t).e
  stage : σ'.stage = σ.stage
  meeting : σ'.meeting = σ.meeting
  client : ∀ d, d ≠ c → σ'.pc d = σ.pc d
  toward : ∀ t, t ≠ s → (σ'.pc c).toward t = (σ.pc c).toward t
  server : ∀ t, t ≠ s → σ'.spc t = σ.spc t
  srvToward : ∀ d, d ≠ c → (σ'.spc s).toward d = (σ.spc s).toward d
  boxes : ∀ d t, ¬ (d = c ∧ t = s) → σ'.req d t = σ.req d t ∧ σ'.rep t d = σ.rep t d

theorem Moves.due (moves : Moves c s σ σ') (d : ClientNode) (t : ServerNode) : σ'.due d t = σ.due d t := by
  simp only [System.due, moves.stage, moves.loading, moves.e]

theorem Moves.pcToward (moves : Moves c s σ σ') (other : ¬ (d = c ∧ t = s)) : (σ'.pc d).toward t = (σ.pc d).toward t := by
  by_cases same : d = c
  · subst same
    exact moves.toward t fun equal => other ⟨rfl, equal⟩
  · rw [moves.client d same]

theorem Moves.spcToward (moves : Moves c s σ σ') (other : ¬ (d = c ∧ t = s)) : (σ'.spc t).toward d = (σ.spc t).toward d := by
  by_cases same : t = s
  · subst same
    exact moves.srvToward d fun equal => other ⟨equal, rfl⟩
  · rw [moves.server t same]

/-- **A step of one pair** leaves the system well when it leaves the pair so. -/
theorem Ok.moves (ok : Ok σ) (moves : Moves c s σ σ')
    (pair : Pair c s (σ.due c s) ((σ.stage c).disconnect c) ((σ'.pc c).toward s) ((σ'.spc s).toward c) (σ'.req c s) (σ'.rep s c))
    (calls : (σ'.pc c).calling = true → (σ.stage c).calls = true)
    (leaving : ∀ id, (σ'.spc s).toward c = some (.took c) → (σ'.req c s).content = some (.mcExit id) → (σ.srv s).loading = false)
    (exits : c = .c2 → σ.stage .c2 = .exit → σ'.pc .c2 ≠ .rest → (σ.srv .s0).loading = false)
    (healthy : σ'.spc s ≠ .failed) : Ok σ' := by
  constructor
  · intro d t
    rw [moves.due, moves.stage]
    by_cases here : d = c ∧ t = s
    · obtain ⟨rfl, rfl⟩ := here
      exact pair
    · rw [moves.pcToward here, moves.spcToward here, (moves.boxes d t here).1, (moves.boxes d t here).2]
      exact ok.pair d t
  · intro d calling
    rw [moves.stage]
    by_cases same : d = c
    · subst same
      exact calls calling
    · rw [moves.client d same] at calling
      exact ok.calls d calling
  · rw [moves.meeting, moves.stage]
    exact ok.meeting
  · rw [moves.stage]
    exact ok.synced
  · intro t
    rw [moves.loading, moves.stage]
    exact ok.begun t
  · rw [moves.stage]
    exact ok.late
  · intro t
    rw [moves.e, moves.loading, moves.stage]
    exact ok.stopped t
  · intro t d id took holds
    rw [moves.loading]
    by_cases here : d = c ∧ t = s
    · obtain ⟨rfl, rfl⟩ := here
      exact leaving id took holds
    · rw [moves.spcToward here] at took
      rw [(moves.boxes d t here).1] at holds
      exact ok.leaving t d id took holds
  · rw [moves.stage, moves.loading]
    rintro (done | ⟨stage, busy⟩)
    · exact ok.exits (Or.inl done)
    · by_cases same : c = .c2
      · exact exits same stage busy
      · rw [moves.client .c2 (Ne.symm same)] at busy
        exact ok.exits (Or.inr ⟨stage, busy⟩)
  · intro t
    by_cases same : t = s
    · subst same
      exact healthy
    · rw [moves.server t same]
      exact ok.healthy t

/-- A client does something for a server, -/
theorem Moves.byClient {x : Pc} (srv : σ'.srv = σ.srv) (stage : σ'.stage = σ.stage) (meeting : σ'.meeting = σ.meeting) (spc : σ'.spc = σ.spc)
    (pc : σ'.pc = Function.update σ.pc c x) (away : ∀ t, t ≠ s → x.toward t = (σ.pc c).toward t)
    (boxes : ∀ d t, ¬ (d = c ∧ t = s) → σ'.req d t = σ.req d t ∧ σ'.rep t d = σ.rep t d) : Moves c s σ σ' := by
  refine ⟨?_, ?_, stage, meeting, ?_, ?_, ?_, ?_, boxes⟩
  · simp [srv]
  · simp [srv]
  · intro d other
    rw [pc, Function.update_of_ne other]
  · intro t other
    rw [pc, Function.update_self]
    exact away t other
  · simp [spc]
  · simp [spc]

/-- or a server for a client. -/
theorem Moves.byServer {y : SrvPc} (loading : ∀ t, (σ'.srv t).loading = (σ.srv t).loading) (e : ∀ t, (σ'.srv t).e = (σ.srv t).e)
    (stage : σ'.stage = σ.stage) (meeting : σ'.meeting = σ.meeting) (pc : σ'.pc = σ.pc)
    (spc : σ'.spc = Function.update σ.spc s y) (away : ∀ d, d ≠ c → y.toward d = (σ.spc s).toward d)
    (boxes : ∀ d t, ¬ (d = c ∧ t = s) → σ'.req d t = σ.req d t ∧ σ'.rep t d = σ.rep t d) : Moves c s σ σ' := by
  refine ⟨loading, e, stage, meeting, ?_, ?_, ?_, ?_, boxes⟩
  · simp [pc]
  · simp [pc]
  · intro t other
    rw [spc, Function.update_of_ne other]
  · intro d other
    rw [spc, Function.update_self]
    exact away d other

/-- Nothing is due from a client that may call. -/
theorem due_calls (calls : (σ.stage c).calls = true) (begun : σ.begun c s) : σ.due c s = none := by
  cases stage : σ.stage c with
  | preload => simp [System.due, stage, Stage.after]
  | bench => cases c <;> simp_all [System.due, System.begun]
  | _ => simp [stage, Stage.calls] at calls

/-- A client that rests writes for nobody. -/
theorem Pair.of_rest {due : Option Request} {next : Option (ServerNode × Request)} {spc : Option SrvPc} {q : Mailbox Request}
    {r : Mailbox Answer} (pair : Pair c s due next ((Pc.rest).toward s) spc q r) (next' : Option (ServerNode × Request)) :
    Pair c s due next' none spc q r := by
  refine ⟨pair.req, pair.rep, ?_, pair.replies⟩
  cases pair.link with
  | quiet nothing empty silent => exact .quiet nothing empty silent
  | written _ _ writes => simp [Writes, Pc.toward] at writes
  | queued m b asks queue untaken unwritten holds silent => exact .queued m b asks queue untaken unwritten holds silent
  | taken m asks queue unwritten unseen holds silent => exact .taken m asks queue unwritten unseen holds silent

/-- A client writes a message. -/
theorem Ok.write {x : Pc} {m : Request} (ok : Ok σ) (rests : σ.pc c = .rest) (nothing : σ.due c s = none)
    (writes : Writes c s ((σ.stage c).disconnect c) (some x) m) (toward : x.toward s = some x) (away : ∀ t, t ≠ s → x.toward t = none)
    (calls : x.calling = true → (σ.stage c).calls = true) (exits : c = .c2 → σ.stage .c2 = .exit → (σ.srv .s0).loading = false)
    (todo : ClientNode → List Op) : Ok { (σ.onReq c s (Mailbox.write 1 m)).setPc c x with todo := todo } := by
  have quiet := ok.pair c s
  rw [nothing, rests] at quiet
  have idle := quiet.of_rest ((σ.stage c).disconnect c)
  apply ok.moves (c := c) (s := s)
  · refine Moves.byClient rfl rfl rfl rfl rfl ?_ ?_
    · intro t other
      rw [away t other, rests]
      rfl
    · intro d t other
      simp [System.onReq, System.setPc, other]
  · rw [nothing]
    simpa [System.onReq, System.setPc, toward] using idle.write writes
  · simpa [System.onReq, System.setPc] using calls
  · intro id took
    have spc := idle.rests.2.2
    rw [show (σ.spc s).toward c = _ from took] at spc
    cases spc
  · exact fun same stage _ => exits same stage
  · exact ok.healthy s

theorem Ok.call {op : Op} (ok : Ok σ) (rests : σ.pc c = .rest) (calls : (σ.stage c).calls = true) (begun : σ.begun c (op.node hash))
    (rest : List Op) :
    Ok (((σ.onReq c (op.node hash) (Mailbox.write 1 (op.request c))).setPc c (.sends (op.node hash) op)).setTodo c rest) := by
  apply ok.write rests (due_calls calls begun) (Or.inl ⟨op, rfl, rfl⟩)
  · simp [Pc.toward]
  · intro t other
    simp [Pc.toward, Ne.symm other]
  · exact fun _ => calls
  · intro same stage
    subst same
    simp [stage, Stage.calls] at calls

/-- Nothing is due from a client that comes to `disconnect_mc_server`. -/
theorem Ok.due_disconnect {m : Request} (ok : Ok σ) (cause : (σ.stage c).disconnect c = some (s, m)) (begun : σ.begun c s) :
    σ.due c s = none ∧ m.op = none := by
  have late := ok.late .s1
  cases stage : σ.stage c <;> simp only [stage, Stage.disconnect, Option.some.injEq, Prod.mk.injEq, reduceCtorEq] at cause
  all_goals
    obtain ⟨rfl, rfl⟩ := cause
    cases c <;> simp_all [System.due, System.begun, Stage.after, Request.op]

theorem Ok.disconnect {m : Request} (ok : Ok σ) (rests : σ.pc c = .rest) (cause : (σ.stage c).disconnect c = some (s, m))
    (begun : σ.begun c s) : Ok ((σ.onReq c s (Mailbox.write 1 m)).setPc c (.controls s)) := by
  obtain ⟨nothing, control⟩ := ok.due_disconnect cause begun
  apply ok.write rests nothing (Or.inr ⟨cause, rfl, control⟩)
  · simp [Pc.toward]
  · intro t other
    simp [Pc.toward, Ne.symm other]
  · simp [Pc.calling]
  · intro same stage
    subst same
    rw [stage] at cause
    simp only [Stage.disconnect, ClientNode.own, Option.some.injEq, Prod.mk.injEq] at cause
    rw [cause.1]
    exact begun rfl (Or.inr stage)

/-- A client sends a request, -/
theorem Ok.sendRequest {op : Op} (ok : Ok σ) (sends : σ.pc c = .sends s op) :
    hasRoom (σ.req c s) = true ∧ Ok ((σ.onReq c s Mailbox.send).setPc c (.waits s op)) := by
  have pair := ok.pair c s
  have toward : (σ.pc c).toward s = some (.sends s op) := by simp [sends, Pc.toward]
  rw [toward] at pair
  obtain ⟨nothing, room, written, idle⟩ := pair.writing (Or.inr ⟨op, rfl⟩)
  have calls := ok.calls c (by simp [sends, Pc.calling])
  have asks : ∀ m, Writes c s ((σ.stage c).disconnect c) (some (.sends s op)) m → Asks c s (σ.due c s) (some (.waits s op)) m := by
    rintro m (⟨op', same, rfl⟩ | ⟨_, differ, _⟩)
    · cases same
      exact Or.inl ⟨nothing, op, rfl, rfl⟩
    · cases differ
  refine ⟨room, ?_⟩
  apply ok.moves (c := c) (s := s)
  · refine Moves.byClient rfl rfl rfl rfl rfl ?_ ?_
    · intro t other
      simp [sends, Pc.toward, Ne.symm other]
    · intro d t other
      simp [System.onReq, System.setPc, other]
  · simpa [System.onReq, System.setPc, Pc.toward] using pair.send written asks
  · exact fun _ => calls
  · intro id took
    rw [show (σ.spc s).toward c = _ from took] at idle
    cases idle
  · intro same stage
    subst same
    simp [stage, Stage.calls] at calls
  · exact ok.healthy s

/-- takes the answer, which is to the call it waits in, -/
theorem Ok.recv {op : Op} {node : ServerNode} (ok : Ok σ) (waits : σ.pc c = .waits node op) (more : (σ.rep s c).queue ≠ []) :
    Ok ((σ.onRep s c Mailbox.recv).setPc c (.reads node op s)) := by
  obtain ⟨op', toward, idle, pair⟩ := (ok.pair c s).recv more
  obtain ⟨rfl, rfl⟩ : s = node ∧ op = op' := by
    simp only [waits, Pc.toward, Option.ite_none_right_eq_some, Option.some.injEq, Pc.waits.injEq] at toward
    exact ⟨toward.1.symm, toward.2.2⟩
  have calls := ok.calls c (by simp [waits, Pc.calling])
  apply ok.moves (c := c) (s := s)
  · refine Moves.byClient rfl rfl rfl rfl rfl ?_ ?_
    · intro t other
      simp [waits, Pc.toward, Ne.symm other]
    · intro d t other
      simp [System.onRep, System.setPc, other, and_comm]
  · simpa [System.onRep, System.setPc, Pc.toward, idle] using pair
  · exact fun _ => calls
  · intro id took
    rw [show (σ.spc s).toward c = _ from took] at idle
    cases idle
  · intro same stage
    subst same
    simp [stage, Stage.calls] at calls
  · exact ok.healthy s

/-- and reads it; then it rests, or an assertion fails. -/
theorem Ok.answer {op : Op} {node src : ServerNode} (ok : Ok σ) (reads : σ.pc c = .reads node op src) :
    src = node ∧ (∃ a, (σ.rep src c).content = some a) ∧ ∀ (x : Pc) (todo : ClientNode → List Op), x = .rest ∨ x = .failed →
      Ok { (σ.onRep src c fun p => p.read.finish).setPc c x with todo := todo } := by
  have pair := ok.pair c node
  have toward : (σ.pc c).toward node = some (.reads node op src) := by simp [reads, Pc.toward]
  rw [toward] at pair
  obtain rfl := pair.reads
  obtain ⟨_, idle, ⟨a, holds, _⟩, after⟩ := pair.answer
  have calls := ok.calls c (by simp [reads, Pc.calling])
  refine ⟨rfl, ⟨a, holds⟩, ?_⟩
  intro x todo ends
  have away (t : ServerNode) : x.toward t = none := by
    rcases ends with rfl | rfl <;> rfl
  apply ok.moves (c := c) (s := src)
  · refine Moves.byClient rfl rfl rfl rfl rfl ?_ ?_
    · intro t other
      rw [away, reads]
      simp [Pc.toward, Ne.symm other]
    · intro d t other
      simp [System.onRep, System.setPc, other, and_comm]
  · simpa [System.onRep, System.setPc, away, idle] using after
  · exact fun _ => calls
  · intro id took
    rw [show (σ.spc src).toward c = _ from took] at idle
    cases idle
  · intro same stage
    subst same
    simp [stage, Stage.calls] at calls
  · exact ok.healthy src

/-- A server takes a message, -/
theorem Ok.take (ok : Ok σ) (polls : σ.spc s = .polls) (more : (σ.req c s).queue ≠ [])
    (leaving : ∀ id, (σ.req c s).recv.content = some (.mcExit id) → (σ.srv s).loading = false) :
    Ok ((σ.onReq c s Mailbox.recv).setSpc s (.took c)) := by
  have pair := ok.pair c s
  rw [polls] at pair
  apply ok.moves (c := c) (s := s)
  · refine Moves.byServer (fun _ => rfl) (fun _ => rfl) rfl rfl rfl rfl ?_ ?_
    · intro d other
      rw [polls]
      simp [SrvPc.toward, Ne.symm other]
    · intro d t other
      simp [System.onReq, System.setSpc, other]
  · simpa [System.onReq, System.setSpc, SrvPc.toward] using pair.take more
  · exact ok.calls c
  · intro id _ holds
    apply leaving id
    simpa [System.onReq, System.setSpc] using holds
  · exact fun same stage busy => ok.exits (Or.inr ⟨stage, busy⟩)
  · simp [System.setSpc]

/-- handles a request, -/
theorem Ok.handle {op : Op} (ok : Ok σ) (took : σ.spc s = .took c) (holds : (σ.req c s).content = some (op.request c)) :
    ∃ st a, eventLoop s (σ.srv s) (op.request c) = (st, some (c, a)) ∧
      Ok ((((σ.onReq c s Mailbox.read).onRep s c (Mailbox.write 1 a)).setSrv s st).setSpc s (.answers c c)) := by
  obtain ⟨st, a, turn, fits, loading, e⟩ := eventLoop_request s (σ.srv s) c op
  have pair := ok.pair c s
  have toward : (σ.spc s).toward c = some (.took c) := by simp [took, SrvPc.toward]
  rw [toward] at pair
  refine ⟨st, a, turn, ?_⟩
  apply ok.moves (c := c) (s := s)
  · refine Moves.byServer ?_ ?_ rfl rfl rfl rfl ?_ ?_
    · intro t
      by_cases same : t = s
      · subst same
        simpa [System.onReq, System.onRep, System.setSrv, System.setSpc] using loading
      · simp [System.onReq, System.onRep, System.setSrv, System.setSpc, same]
    · intro t
      by_cases same : t = s
      · subst same
        simpa [System.onReq, System.onRep, System.setSrv, System.setSpc] using e
      · simp [System.onReq, System.onRep, System.setSrv, System.setSpc, same]
    · intro d other
      rw [took]
      simp [SrvPc.toward, Ne.symm other]
    · intro d t other
      simp [System.onReq, System.onRep, System.setSrv, System.setSpc, other, and_comm]
  · simpa [System.onReq, System.onRep, System.setSrv, System.setSpc, SrvPc.toward] using
      pair.handle holds (request_op c op) fits
  · exact ok.calls c
  · simp [System.setSpc, SrvPc.toward]
  · exact fun same stage busy => ok.exits (Or.inr ⟨stage, busy⟩)
  · simp [System.setSpc]

/-- and sends its answer. -/
theorem Ok.reply {dst : ClientNode} (ok : Ok σ) (answers : σ.spc s = .answers c dst) :
    dst = c ∧ hasRoom (σ.rep s c) = true ∧ Ok (((σ.onRep s c Mailbox.send).onReq c s Mailbox.finish).setSpc s .polls) := by
  have pair := ok.pair c s
  have toward : (σ.spc s).toward c = some (.answers c dst) := by simp [answers, SrvPc.toward]
  rw [toward] at pair
  obtain ⟨rfl, room⟩ := pair.answers
  refine ⟨rfl, room, ?_⟩
  apply ok.moves (c := dst) (s := s)
  · refine Moves.byServer (fun _ => rfl) (fun _ => rfl) rfl rfl rfl rfl ?_ ?_
    · intro d other
      rw [answers]
      simp [SrvPc.toward, Ne.symm other]
    · intro d t other
      simp [System.onReq, System.onRep, System.setSpc, other, and_comm]
  · simpa [System.onReq, System.onRep, System.setSpc, SrvPc.toward] using pair.reply
  · exact ok.calls dst
  · simp [System.setSpc, SrvPc.toward]
  · exact fun same stage busy => ok.exits (Or.inr ⟨stage, busy⟩)
  · simp [System.setSpc]

/-! ## Steps that go on in a program -/

/-- A client that rests goes on in its program, where nothing becomes due. -/
theorem Ok.setStage {stage : Stage} {k : Nat} {todo : ClientNode → List Op} (ok : Ok σ) (rests : σ.pc c = .rest)
    (after : ∀ s, stage.after s = (σ.stage c).after s) (running : stage ≠ .done) (before : σ.stage c ≠ .done)
    (more : (σ.stage c).syncs ≤ stage.syncs) (count : k + (σ.stage c).syncs = σ.meeting + stage.syncs)
    (leaves : stage.leaves = true → ∀ d, (Function.update σ.stage c stage d).syncs = 2) :
    Ok { σ.setStage c stage with meeting := k, todo := todo } := by
  have afterAll (d : ClientNode) (s : ServerNode) : (Function.update σ.stage c stage d).after s = (σ.stage d).after s := by
    by_cases same : d = c
    · subst same
      rw [Function.update_self, after]
    · rw [Function.update_of_ne same]
  have doneAll (d : ClientNode) : Function.update σ.stage c stage d = .done ↔ σ.stage d = .done := by
    by_cases same : d = c
    · subst same
      simp [running, before]
    · rw [Function.update_of_ne same]
  constructor
  · intro d t
    have pair := ok.pair d t
    have due : ({ σ.setStage c stage with meeting := k, todo := todo } : System hash slab).due d t = σ.due d t := by
      simp only [System.due, System.setStage, afterAll, doneAll]
    rw [due]
    by_cases same : d = c
    · subst same
      rw [rests] at pair
      simpa [System.setStage, rests, Pc.toward] using pair.of_rest (stage.disconnect d)
    · simpa [System.setStage, same] using pair
  · intro d calling
    have differ : d ≠ c := by
      rintro rfl
      simp [System.setStage, rests, Pc.calling] at calling
    simpa [System.setStage, differ] using ok.calls d calling
  · have meeting := ok.meeting
    cases c <;> simp_all [System.setStage] <;> omega
  · intro d leaving e
    by_cases same : d = c
    · subst same
      exact leaves (by simpa [System.setStage] using leaving) e
    · have two := ok.synced d (by simpa [System.setStage, same] using leaving)
      by_cases here : e = c
      · subst here
        have low : stage.syncs ≤ 2 := by cases stage <;> simp [Stage.syncs]
        have high := two e
        change (Function.update σ.stage e stage e).syncs = 2
        rw [Function.update_self]
        omega
      · simpa [System.setStage, here] using two e
  · intro s ready
    exact (afterAll .c2 s).trans (ok.begun s ready)
  · intro s
    exact (afterAll .c3 s).trans (ok.late s)
  · intro s ended
    exact ⟨(ok.stopped s ended).1, fun d own => (doneAll d).mpr ((ok.stopped s ended).2 d own)⟩
  · exact ok.leaving
  · rintro (done | ⟨stage', busy⟩)
    · exact ok.exits (Or.inl ((doneAll .c2).mp done))
    · have differ : ClientNode.c2 ≠ c := by
        rintro rfl
        exact busy rests
      refine ok.exits (Or.inr ⟨?_, busy⟩)
      simpa [System.setStage, differ] using stage'
  · exact ok.healthy

theorem Ok.advance (ok : Ok σ) (rests : σ.pc c = .rest) (step : σ.advance prog c = some σ') : Ok σ' := by
  have meeting := ok.meeting
  cases stage : σ.stage c <;> simp only [System.advance, stage, reduceCtorEq, Option.some.injEq, Option.ite_none_right_eq_some] at step
  case preload =>
    obtain ⟨_, rfl⟩ := step
    apply ok.setStage rests <;> simp [stage, System.setStage, Stage.after, Stage.syncs, Stage.leaves]
  case sync1 =>
    obtain rfl := step
    apply ok.setStage rests <;> simp [stage, Stage.after, Stage.syncs, Stage.leaves]
  case wait1 =>
    obtain ⟨_, rfl⟩ := step
    apply ok.setStage rests <;> simp [stage, Stage.after, Stage.syncs, Stage.leaves]
  case bench =>
    obtain ⟨_, rfl⟩ := step
    apply ok.setStage rests <;> simp [stage, Stage.after, Stage.syncs, Stage.leaves]
  case sync2 =>
    obtain rfl := step
    apply ok.setStage rests <;> simp [stage, Stage.after, Stage.syncs, Stage.leaves]
  case wait2 =>
    obtain ⟨all, rfl⟩ := step
    have two (x : Stage) : x.syncs ≤ 2 := by cases x <;> simp [Stage.syncs]
    have first := two (σ.stage .c2)
    have second := two (σ.stage .c3)
    have here : (Stage.exit).syncs = 2 := rfl
    have now : (Stage.wait2).syncs = 2 := rfl
    have both (d : ClientNode) : (σ.stage d).syncs = 2 := by cases d <;> omega
    apply ok.setStage rests
    · simp [stage, Stage.after]
    · nofun
    · simp [stage]
    · rw [stage, here, now]
    · rw [stage, here, now]
    · intro _ d
      by_cases same : d = c
      · subst same
        rw [Function.update_self, here]
      · rw [Function.update_of_ne same, both]

theorem next_after (stage : Stage) (s : ServerNode) (before : stage.after s = true) : stage.next.after s = true := by
  cases stage <;> cases s <;> simp_all [Stage.after, Stage.next]

theorem next_leaves (stage : Stage) : stage.next.leaves = stage.leaves := by
  cases stage <;> rfl

theorem next_syncs (stage : Stage) : stage.next.syncs = stage.syncs := by
  cases stage <;> rfl

/-- What `disconnect_mc_server` has sent is due, -/
theorem Ok.due_next {m : Request} (ok : Ok σ) (cause : (σ.stage c).disconnect c = some (s, m)) (busy : σ.pc c ≠ .rest)
    (stage : σ'.stage c = (σ.stage c).next) (srv : σ'.srv = σ.srv) : σ'.due c s = some m := by
  have early := ok.begun s
  have running (own : c.own = s) (ended : (σ.srv s).e = false) : σ.stage c = .done := (ok.stopped s ended).2 c own
  have late := ok.late .s1
  have exits := ok.exits
  cases now : σ.stage c <;> simp only [now, Stage.disconnect, Option.some.injEq, Prod.mk.injEq, reduceCtorEq] at cause
  all_goals
    obtain ⟨rfl, rfl⟩ := cause
    cases c <;> simp_all [System.due, Stage.after, Stage.next, ClientNode.own]

/-- and nothing else. -/
theorem due_other {m : Request} (cause : (σ.stage c).disconnect c = some (s, m)) (other : t ≠ s)
    (stage : σ'.stage c = (σ.stage c).next) (srv : σ'.srv = σ.srv) : σ'.due c t = σ.due c t := by
  cases now : σ.stage c <;> simp only [now, Stage.disconnect, Option.some.injEq, Prod.mk.injEq, reduceCtorEq] at cause
  all_goals
    obtain ⟨rfl, rfl⟩ := cause
    cases c <;> cases t <;> simp_all [System.due, Stage.after, Stage.next, ClientNode.own]

/-- A client sends MC_BEGIN or MC_EXIT. -/
theorem Ok.sendControl (ok : Ok σ) (controls : σ.pc c = .controls s) :
    hasRoom (σ.req c s) = true ∧ Ok (((σ.setPc c .rest).setStage c (σ.stage c).next).onReq c s Mailbox.send) := by
  have pair := ok.pair c s
  have toward : (σ.pc c).toward s = some (.controls s) := by simp [controls, Pc.toward]
  rw [toward] at pair
  have busy : σ.pc c ≠ .rest := by simp [controls]
  obtain ⟨_, room, written, idle⟩ := pair.writing (Or.inl rfl)
  obtain ⟨m, cause⟩ := pair.cause
  refine ⟨room, ?_⟩
  generalize after : ((σ.setPc c .rest).setStage c (σ.stage c).next).onReq c s Mailbox.send = σ'
  have srv : σ'.srv = σ.srv := by rw [← after]; rfl
  have spc : σ'.spc = σ.spc := by rw [← after]; rfl
  have stage : σ'.stage = Function.update σ.stage c (σ.stage c).next := by rw [← after]; rfl
  have pc : σ'.pc = Function.update σ.pc c .rest := by rw [← after]; rfl
  have rep : σ'.rep = σ.rep := by rw [← after]; rfl
  have req : σ'.req c s = (σ.req c s).send := by simp [← after, System.onReq, System.setPc, System.setStage]
  have reqOther (d : ClientNode) (t : ServerNode) (other : ¬ (d = c ∧ t = s)) : σ'.req d t = σ.req d t := by
    simp [← after, System.onReq, System.setPc, System.setStage, other]
  have here : σ'.stage c = (σ.stage c).next := by simp [stage]
  have syncs (d : ClientNode) : (σ'.stage d).syncs = (σ.stage d).syncs := by
    by_cases same : d = c
    · subst same
      rw [here, next_syncs]
    · rw [stage, Function.update_of_ne same]
  have afterAll (d : ClientNode) (t : ServerNode) (before : (σ.stage d).after t = true) : (σ'.stage d).after t = true := by
    by_cases same : d = c
    · subst same
      rw [here]
      exact next_after _ t before
    · rwa [stage, Function.update_of_ne same]
  constructor
  · intro d t
    by_cases client : d = c
    · subst client
      by_cases server : t = s
      · subst server
        rw [req, rep, spc, pc, Function.update_self]
        apply pair.send written
        rintro m' (⟨op, differ, _⟩ | ⟨cause', _, control⟩)
        · cases differ
        · exact Or.inr ⟨ok.due_next cause' busy here srv, rfl, control⟩
      · have quiet := ok.pair d t
        have away : (σ.pc d).toward t = (Pc.rest).toward t := by simp [controls, Pc.toward, Ne.symm server]
        rw [away] at quiet
        rw [due_other cause server here srv, reqOther d t (by simp [server]), rep, spc, pc, Function.update_self]
        exact quiet.of_rest _
    · have due : σ'.due d t = σ.due d t := by simp [System.due, stage, srv, client]
      rw [due, reqOther d t (by simp [client]), rep, spc, pc, stage, Function.update_of_ne client, Function.update_of_ne client]
      exact ok.pair d t
  · intro d calling
    have differ : d ≠ c := by
      rintro rfl
      simp [pc, Pc.calling] at calling
    rw [pc, Function.update_of_ne differ] at calling
    rw [stage, Function.update_of_ne differ]
    exact ok.calls d calling
  · rw [syncs, syncs, ← ok.meeting, ← after]
    rfl
  · intro d leaves e
    rw [syncs]
    refine ok.synced d ?_ e
    by_cases same : d = c
    · subst same
      rwa [here, next_leaves] at leaves
    · rwa [stage, Function.update_of_ne same] at leaves
  · intro t ready
    rw [srv] at ready
    exact afterAll .c2 t (ok.begun t ready)
  · exact fun t => afterAll .c3 t (ok.late t)
  · intro t ended
    rw [srv] at ended
    refine ⟨by simpa [srv] using (ok.stopped t ended).1, fun d own => ?_⟩
    have done := (ok.stopped t ended).2 d own
    by_cases same : d = c
    · subst same
      rw [here, done]
      rfl
    · rwa [stage, Function.update_of_ne same]
  · intro t d id took holds
    rw [spc] at took
    have differ : ¬ (d = c ∧ t = s) := by
      rintro ⟨rfl, rfl⟩
      rw [took] at idle
      cases idle
    rw [reqOther d t differ] at holds
    rw [srv]
    exact ok.leaving t d id took holds
  · rw [srv]
    intro ending
    apply ok.exits
    by_cases same : c = .c2
    · subst same
      rw [here, pc] at ending
      refine Or.inr ⟨?_, busy⟩
      cases now : σ.stage .c2 <;> simp_all [Stage.next, Stage.disconnect]
    · rwa [stage, pc, Function.update_of_ne (Ne.symm same), Function.update_of_ne (Ne.symm same)] at ending
  · rw [spc]
    exact ok.healthy

/-- A server handles what is due, and it is due no more. -/
theorem Ok.settle {m : Request} {st : Srv hash slab} (ok : Ok σ) (took : σ.spc s = .took c) (holds : (σ.req c s).content = some m)
    (control : m.op = none) (after : ((σ.onReq c s fun p => p.read.finish).setSrv s st).setSpc s .polls = σ')
    (settled : σ'.due c s = none) (other : ∀ d, d ≠ c → σ'.due d s = σ.due d s)
    (loading : (σ.srv s).loading = false → st.loading = false) (begun : st.loading = false → (σ.stage .c2).after s = true)
    (stopped : st.e = false → st.loading = false ∧ ∀ d, d.own = s → σ.stage d = .done) : Ok σ' := by
  have pair := ok.pair c s
  have toward : (σ.spc s).toward c = some (.took c) := by simp [took, SrvPc.toward]
  rw [toward] at pair
  have stage : σ'.stage = σ.stage := by rw [← after]; rfl
  have pc : σ'.pc = σ.pc := by rw [← after]; rfl
  have rep : σ'.rep = σ.rep := by rw [← after]; rfl
  have srv : σ'.srv = Function.update σ.srv s st := by rw [← after]; rfl
  have spc : σ'.spc = Function.update σ.spc s .polls := by rw [← after]; rfl
  have req : σ'.req c s = (σ.req c s).read.finish := by simp [← after, System.onReq, System.setSpc, System.setSrv]
  have reqOther (d : ClientNode) (t : ServerNode) (differ : ¬ (d = c ∧ t = s)) : σ'.req d t = σ.req d t := by
    simp [← after, System.onReq, System.setSpc, System.setSrv, differ]
  have loadingAll (t : ServerNode) (ready : (σ.srv t).loading = false) : (σ'.srv t).loading = false := by
    by_cases same : t = s
    · subst same
      rw [srv, Function.update_self]
      exact loading ready
    · rwa [srv, Function.update_of_ne same]
  constructor
  · intro d t
    rw [stage, pc, rep, spc]
    by_cases server : t = s
    · subst server
      rw [Function.update_self]
      by_cases client : d = c
      · subst client
        rw [settled, req]
        exact pair.control holds control
      · have away : (σ.spc t).toward d = none := by simp [took, SrvPc.toward, Ne.symm client]
        have quiet := ok.pair d t
        rw [away] at quiet
        rw [other d client, reqOther d t (by simp [client])]
        exact quiet
    · have due : σ'.due d t = σ.due d t := by simp [System.due, stage, srv, server]
      rw [due, reqOther d t (by simp [server]), Function.update_of_ne server]
      exact ok.pair d t
  · rw [pc, stage]
    exact ok.calls
  · rw [stage, ← ok.meeting, ← after]
    rfl
  · rw [stage]
    exact ok.synced
  · intro t ready
    rw [stage]
    by_cases same : t = s
    · subst same
      rw [srv, Function.update_self] at ready
      exact begun ready
    · rw [srv, Function.update_of_ne same] at ready
      exact ok.begun t ready
  · rw [stage]
    exact ok.late
  · intro t ended
    rw [stage]
    by_cases same : t = s
    · subst same
      rw [srv, Function.update_self] at ended ⊢
      exact stopped ended
    · rw [srv, Function.update_of_ne same] at ended ⊢
      exact ok.stopped t ended
  · intro t d id taken here
    have differ : t ≠ s := by
      rintro rfl
      simp [spc, SrvPc.toward] at taken
    rw [spc, Function.update_of_ne differ] at taken
    rw [reqOther d t (by simp [differ])] at here
    exact loadingAll t (ok.leaving t d id taken here)
  · rw [stage, pc]
    exact fun ending => loadingAll .s0 (ok.exits ending)
  · intro t
    by_cases same : t = s
    · subst same
      simp [spc]
    · rw [spc, Function.update_of_ne same]
      exact ok.healthy t

/-- **MC_BEGIN and MC_EXIT** are handled. -/
theorem Ok.control {m : Request} (ok : Ok σ) (took : σ.spc s = .took c) (holds : (σ.req c s).content = some m) (due : σ.due c s = some m) :
    ∃ st, eventLoop s (σ.srv s) m = (st, none) ∧ Ok (((σ.onReq c s fun p => p.read.finish).setSrv s st).setSpc s .polls) := by
  have toward : (σ.spc s).toward c = some (.took c) := by simp [took, SrvPc.toward]
  unfold System.due at due
  split at due
  case isTrue begin =>
    obtain ⟨rfl, sent, load⟩ := begin
    obtain rfl := (Option.some.inj due).symm
    have ready := ((σ.srv s).cache.handle_loading (show (Msg.begin).Admissible from trivial)).mpr (Or.inr rfl)
    refine ⟨_, rfl, ok.settle took holds rfl rfl ?_ ?_ ?_ ?_ ?_⟩
    · have running (own : s = .s0) : σ.stage .c2 ≠ .done := by
        rintro done
        subst own
        rw [ok.exits (Or.inl done)] at load
        cases load
      cases s <;> simp_all [System.due, System.setSpc, System.setSrv, System.onReq, Srv.loading, ClientNode.own]
    · intro d differ
      simp [System.due, System.setSpc, System.setSrv, System.onReq, differ]
    · exact fun _ => ready
    · exact fun _ => sent
    · intro ended
      rw [(ok.stopped s ended).1] at load
      cases load
  case isFalse loaded =>
    split at due
    case isTrue exit =>
      obtain ⟨own, done, runs⟩ := exit
      obtain rfl := (Option.some.inj due).symm
      have sole {d : ClientNode} (same : d.own = s) : d = c := own_inj (same.trans own.symm)
      refine ⟨_, rfl, ok.settle took holds rfl rfl ?_ ?_ ?_ ?_ ?_⟩
      · simpa [System.due, System.setSpc, System.setSrv, System.onReq, Srv.loading] using loaded
      · intro d differ
        have elsewhere : ¬ d.own = s := fun same => differ (sole same)
        simp [System.due, System.setSpc, System.setSrv, System.onReq, Srv.loading, elsewhere]
      · exact id
      · exact ok.begun s
      · intro _
        refine ⟨ok.leaving s c c toward holds, fun d same => ?_⟩
        rwa [sole same]
    case isFalse => cases due

end

end BiProject.MpMc
