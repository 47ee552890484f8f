import BiProject.MpMc.Once

/-!
# Every message is handled once

Every run comes to an end: each step brings down what the clients and the messages still have before them. As long as the
steps wait for MC_BEGIN nothing is lost, overwritten or handled twice on the way, and at the end nothing is pending.
-/

namespace BiProject.MpMc
set_option autoImplicit false
open BiProject.McServer BiProject.Lib

section
variable {hash : List UInt8 → Nat} {slab : Slab} {prog : Program} {σ σ' : System hash slab} {c : ClientNode} {s : ServerNode} {a : Act}

/-! ## The steps -/

/-- What a server has taken it can handle. -/
theorem Ok.turn (ok : Ok σ) (took : σ.spc s = .took c) : ∃ σ', σ.handle s = some σ' ∧ Ok σ' := by
  have pair := ok.pair c s
  have toward : (σ.spc s).toward c = some (.took c) := by simp [took, SrvPc.toward]
  rw [toward] at pair
  obtain ⟨m, asks, holds, _⟩ := pair.took
  obtain ⟨_, op, _, rfl⟩ | ⟨due, _, _⟩ := asks
  · obtain ⟨st, a, turn, after⟩ := ok.handle took holds
    exact ⟨_, by simp [System.handle, took, holds, turn], after⟩
  · obtain ⟨st, turn, after⟩ := ok.control took holds due
    exact ⟨_, by simp [System.handle, took, holds, turn], after⟩

theorem Ok.send (ok : Ok σ) (step : σ.rpcSend c = some σ') : Ok σ' := by
  cases pc : σ.pc c <;> simp only [System.rpcSend, pc, reduceCtorEq] at step
  case sends node op =>
    obtain ⟨room, after⟩ := ok.sendRequest pc
    rw [if_pos room, Option.some.injEq] at step
    rwa [← step]
  case controls node =>
    obtain ⟨room, after⟩ := ok.sendControl pc
    rw [if_pos room, Option.some.injEq] at step
    rwa [← step]

theorem Ok.read (ok : Ok σ) (step : σ.answer c = some σ') : Ok σ' := by
  cases pc : σ.pc c <;> simp only [System.answer, pc, reduceCtorEq, Option.bind_eq_bind, Option.bind_eq_some_iff] at step
  case reads node op src =>
    obtain ⟨_, _, ends⟩ := ok.answer pc
    obtain ⟨a, _, step⟩ := step
    split at step
    · obtain rfl := (Option.some.inj step).symm
      exact ends .rest _ (Or.inl rfl)
    · obtain rfl := (Option.some.inj step).symm
      exact ends .failed σ.todo (Or.inr rfl)

/-- **Every step that waits for MC_BEGIN** leaves the system well. -/
theorem Ok.step (ok : Ok σ) (careful : σ.careful a) (step : σ.step prog a = some σ') : Ok σ' := by
  cases a with
  | call c =>
    simp only [System.step, Option.bind_eq_bind, Option.bind_eq_some_iff, Option.guard_eq_some'] at step
    obtain ⟨_, ⟨rests, calls⟩, step⟩ := step
    cases todo : σ.todo c with
    | nil => simp [todo] at step
    | cons op rest =>
      simp only [todo, Option.pure_def, Option.some.injEq] at step
      simp only [System.careful, todo] at careful
      rw [← step]
      exact ok.call rests calls careful rest
  | disconnect c =>
    simp only [System.step, Option.bind_eq_bind, Option.bind_eq_some_iff, Option.guard_eq_some', Option.pure_def, Option.some.injEq,
      Prod.exists] at step
    obtain ⟨_, rests, s, m, cause, rfl⟩ := step
    simp only [System.careful, cause] at careful
    exact ok.disconnect rests cause careful
  | advance c =>
    simp only [System.step, Option.bind_eq_bind, Option.bind_eq_some_iff, Option.guard_eq_some'] at step
    obtain ⟨_, rests, step⟩ := step
    exact ok.advance rests step
  | send c => exact ok.send step
  | recv c s =>
    cases pc : σ.pc c <;> simp only [System.step, pc, reduceCtorEq, Option.bind_eq_bind, Option.bind_eq_some_iff, Option.guard_eq_some',
      Option.pure_def, Option.some.injEq] at step
    case waits node op =>
      obtain ⟨_, more, rfl⟩ := step
      exact ok.recv pc more
  | answer c => exact ok.read step
  | take s c =>
    simp only [System.step, Option.bind_eq_bind, Option.bind_eq_some_iff, Option.guard_eq_some', Option.pure_def, Option.some.injEq] at step
    obtain ⟨_, ⟨polls, _, more⟩, rfl⟩ := step
    apply ok.take polls more
    intro id holds
    simpa [System.careful, holds] using careful
  | handle s =>
    cases spc : σ.spc s with
    | took c =>
      obtain ⟨σ₁, turn, after⟩ := ok.turn spc
      rw [show σ.handle s = some σ' from step, Option.some.injEq] at turn
      rwa [turn]
    | _ => simp [System.step, System.handle, spc] at step
  | reply s =>
    cases spc : σ.spc s with
    | answers c dst =>
      obtain ⟨rfl, room, after⟩ := ok.reply spc
      simp only [System.step, System.reply, spc, room, if_true, Option.some.injEq] at step
      rwa [← step]
    | _ => simp [System.step, System.reply, spc] at step

theorem run_ok {n : Nat} (run : Run prog System.careful n σ) : Ok σ := by
  induction run with
  | init => exact Ok.init
  | step _ careful step ih => exact ih.step careful step

/-! ## The end of a run -/

/-- No step is left that waits for MC_BEGIN where it should. -/
def Final (prog : Program) (σ : System hash slab) : Prop := ∀ a, σ.careful a → σ.step prog a = none

/-- No server is in the middle of a turn, -/
theorem Ok.polls (ok : Ok σ) (final : Final prog σ) (s : ServerNode) : σ.spc s = .polls := by
  cases spc : σ.spc s with
  | polls => rfl
  | took c =>
    obtain ⟨σ', turn, _⟩ := ok.turn spc
    rw [show σ.handle s = none from final (.handle s) trivial] at turn
    cases turn
  | answers c dst =>
    obtain ⟨rfl, room, _⟩ := ok.reply spc
    have stuck := final (.reply s) trivial
    simp [System.step, System.reply, spc, room] at stuck
  | failed => exact absurd spc (ok.healthy s)

/-- none has stopped with a message before it, -/
theorem Ok.running {m : Request} (ok : Ok σ) (asks : Asks c s (σ.due c s) ((σ.pc c).toward s) m) : (σ.srv s).e = true := by
  by_contra ended
  rw [Bool.not_eq_true] at ended
  obtain ⟨ready, done⟩ := ok.stopped s ended
  obtain ⟨_, op, waits, _⟩ | ⟨due, _, _⟩ := asks
  · have calls := ok.calls c (by
      cases pc : σ.pc c <;> simp_all [Pc.toward, Pc.calling])
    obtain ⟨d, own⟩ : ∃ d : ClientNode, d.own = s := by
      cases s
      · exact ⟨.c2, rfl⟩
      · exact ⟨.c3, rfl⟩
    have two := ok.synced d (by rw [done d own]; rfl) c
    cases stage : σ.stage c <;> simp [stage, Stage.calls, Stage.syncs] at calls two
  · simp [System.due, ready, ended] at due

/-- and what one may not take is MC_EXIT while it is loading. -/
theorem Ok.untaken {b : Nat} {m : Request} (ok : Ok σ) (final : Final prog σ) (asks : Asks c s (σ.due c s) ((σ.pc c).toward s) m)
    (queue : (σ.req c s).queue = [b]) (holds : (σ.req c s).buf b = some m) : σ.due c s = some (.mcExit c) ∧ (σ.srv s).loading = true := by
  have content : (σ.req c s).recv.content = some m := by simp [Mailbox.recv, Mailbox.content, queue, holds]
  have runs := ok.running asks
  have held : ¬ σ.careful (.take s c) := by
    intro careful
    have stuck := final _ careful
    simp [System.step, ok.polls final s, queue, guard] at stuck
    rw [runs] at stuck
    cases stuck
  simp only [System.careful, content] at held
  obtain ⟨_, op, _, rfl⟩ | ⟨due, _, _⟩ := asks
  · cases op <;> simp [Op.request] at held
  · rw [due]
    unfold System.due at due
    split at due
    · obtain rfl := (Option.some.inj due).symm
      exact absurd trivial held
    · split at due
      · obtain rfl := (Option.some.inj due).symm
        exact ⟨rfl, by simpa using held⟩
      · cases due

/-- Client 2 is past both MC_BEGIN when a client leaves. -/
theorem Ok.begun_of_done (ok : Ok σ) (done : σ.stage c = .done) (s : ServerNode) : (σ.stage .c2).after s = true := by
  have two := ok.synced c (by rw [done]; rfl) .c2
  cases stage : σ.stage .c2 <;> simp_all [Stage.syncs, Stage.after]

theorem toward_eq {pc x : Pc} (toward : pc.toward s = some x) : pc = x := by
  cases pc <;> simp_all [Pc.toward]

/-- Nothing else is under way, -/
theorem Ok.ends (ok : Ok σ) (final : Final prog σ) (c : ClientNode) (s : ServerNode) :
    ((σ.req c s).flight = [] ∧ (σ.rep s c).flight = [] ∧ σ.due c s = none) ∨ (σ.due c s = some (.mcExit c) ∧ (σ.srv s).loading = true) := by
  have pair := ok.pair c s
  have idle : (σ.spc s).toward c = none := by rw [ok.polls final s]; rfl
  rw [idle] at pair
  generalize toward : (σ.pc c).toward s = pc at pair
  cases pair.link with
  | quiet nothing empty silent => exact Or.inl ⟨empty, silent, nothing⟩
  | written m _ writes =>
    have stuck := final (.send c) trivial
    obtain ⟨op, rfl, _⟩ | ⟨_, rfl, _⟩ := writes
    · simp [System.step, System.rpcSend, toward_eq toward] at stuck
      split at stuck <;> cases stuck
    · simp [System.step, System.rpcSend, toward_eq toward] at stuck
      split at stuck <;> cases stuck
  | queued m b asks queue _ _ holds =>
    rw [← toward] at asks
    exact Or.inr (ok.untaken final asks queue holds)
  | answered op a b _ _ queue =>
    have stuck := final (.recv c s) trivial
    simp [System.step, toward_eq toward, queue, guard] at stuck
  | read op a _ _ _ _ _ holds =>
    have stuck := final (.answer c) trivial
    simp only [System.step, System.answer, toward_eq toward, holds, Option.bind_eq_bind, Option.bind_some] at stuck
    split at stuck <;> cases stuck

/-- **and at the end nothing at all**: while MC_EXIT waits for MC_BEGIN, this can be taken. -/
theorem Ok.final (ok : Ok σ) (final : Final prog σ) (c : ClientNode) (s : ServerNode) :
    (σ.req c s).flight = [] ∧ (σ.rep s c).flight = [] ∧ σ.due c s = none := by
  rcases ok.ends final c s with quiet | ⟨exit, loading⟩
  · exact quiet
  · have done : σ.stage c = .done := by
      unfold System.due at exit
      split at exit
      · cases exit
      · split at exit
        · rename_i _ leaving
          exact leaving.2.1
        · cases exit
    have begin : σ.due .c2 s = some (.mcBegin .c2) := by
      simp [System.due, ok.begun_of_done done s, loading]
    rcases ok.ends final .c2 s with ⟨_, _, nothing⟩ | ⟨other, _⟩
    · rw [nothing] at begin
      cases begin
    · rw [other] at begin
      cases begin

/-! ## Every run ends -/

/-- The steps that are left of a client's program, -/
def Stage.left : Stage → Nat
  | .preload => 9
  | .begin0 => 8
  | .begin1 => 7
  | .sync1 => 6
  | .wait1 => 5
  | .bench => 4
  | .sync2 => 3
  | .wait2 => 2
  | .exit => 1
  | .done => 0

/-- and the calls that `load_trace` will add to it, -/
def Stage.later (trace : List Op) : Stage → Nat
  | .preload => trace.length
  | _ => 0

/-- of a call, -/
def Pc.left : Pc → Nat
  | .rest => 1
  | .sends _ _ => 8
  | .waits _ _ => 1
  | .reads _ _ _ => 2
  | .controls _ => 0
  | .failed => 0

/-- and of a turn. -/
def SrvPc.left : SrvPc → Nat
  | .polls => 0
  | .took _ => 5
  | .answers _ _ => 4
  | .failed => 0

/-- What a client has before it, with nine steps for each call, -/
def System.clientLeft (prog : Program) (σ : System hash slab) (c : ClientNode) : Nat :=
  9 * (σ.todo c).length + 9 * (σ.stage c).later (prog.trace c) + 9 * (σ.stage c).left + (σ.pc c).left

/-- a server and its clients' messages, -/
def System.serverLeft (σ : System hash slab) (s : ServerNode) : Nat :=
  (σ.spc s).left + 6 * ((σ.req .c2 s).queue.length + (σ.req .c3 s).queue.length) +
    3 * ((σ.rep s .c2).queue.length + (σ.rep s .c3).queue.length)

/-- and all of them. -/
def System.left (prog : Program) (σ : System hash slab) : Nat :=
  σ.clientLeft prog .c2 + σ.clientLeft prog .c3 + σ.serverLeft .s0 + σ.serverLeft .s1

theorem callsLeft_length {stage : Stage} {op : Op} {todo rest : List Op} {r : Int} (left : callsLeft stage op todo r = some rest) :
    rest.length ≤ todo.length := by
  unfold callsLeft at left
  grind

theorem advance_left (step : σ.advance prog c = some σ') : σ'.left prog < σ.left prog := by
  cases stage : σ.stage c <;> simp only [System.advance, stage, reduceCtorEq, Option.some.injEq, Option.ite_none_right_eq_some] at step
  case preload =>
    obtain ⟨empty, rfl⟩ := step
    cases c <;> simp [System.left, System.clientLeft, System.serverLeft, System.setStage, System.setTodo, stage, empty, Stage.left, Stage.later]
  case sync1 =>
    obtain rfl := step
    cases c <;> simp [System.left, System.clientLeft, System.serverLeft, System.setStage, stage, Stage.left, Stage.later]
  case wait1 =>
    obtain ⟨_, rfl⟩ := step
    cases c <;> simp [System.left, System.clientLeft, System.serverLeft, System.setStage, stage, Stage.left, Stage.later]
  case bench =>
    obtain ⟨_, rfl⟩ := step
    cases c <;> simp [System.left, System.clientLeft, System.serverLeft, System.setStage, stage, Stage.left, Stage.later]
  case sync2 =>
    obtain rfl := step
    cases c <;> simp [System.left, System.clientLeft, System.serverLeft, System.setStage, stage, Stage.left, Stage.later]
  case wait2 =>
    obtain ⟨_, rfl⟩ := step
    cases c <;> simp [System.left, System.clientLeft, System.serverLeft, System.setStage, stage, Stage.left, Stage.later]

theorem next_left {stage : Stage} {x : ServerNode × Request} (cause : stage.disconnect c = some x) (trace : List Op) :
    stage.next.left + 1 = stage.left ∧ stage.next.later trace = stage.later trace := by
  cases stage <;> first | exact ⟨rfl, rfl⟩ | cases cause

theorem length_toList (x : Option Nat) : x.toList.length ≤ 1 := by
  cases x <;> simp

theorem Ok.send_left (ok : Ok σ) (step : σ.rpcSend c = some σ') : σ'.left prog < σ.left prog := by
  cases pc : σ.pc c <;> simp only [System.rpcSend, pc, reduceCtorEq] at step
  case sends node op =>
    have one := length_toList (σ.req c node).written
    rw [if_pos (ok.sendRequest pc).1, Option.some.injEq] at step
    rw [← step]
    cases c <;> cases node <;> simp [System.left, System.clientLeft, System.serverLeft, System.onReq, System.setPc, Mailbox.send, pc, Pc.left]
      <;> omega
  case controls node =>
    have one := length_toList (σ.req c node).written
    have pair := ok.pair c node
    rw [show (σ.pc c).toward node = some (.controls node) by simp [pc, Pc.toward]] at pair
    obtain ⟨m, cause⟩ := pair.cause
    obtain ⟨left, later⟩ := next_left cause (prog.trace c)
    rw [if_pos (ok.sendControl pc).1, Option.some.injEq] at step
    rw [← step]
    cases c <;> cases node <;> simp [System.left, System.clientLeft, System.serverLeft, System.onReq, System.setPc, System.setStage,
      Mailbox.send, pc, Pc.left, later] <;> omega

theorem answer_left (step : σ.answer c = some σ') : σ'.left prog < σ.left prog := by
  cases pc : σ.pc c <;> simp only [System.answer, pc, reduceCtorEq, Option.bind_eq_bind, Option.bind_eq_some_iff] at step
  case reads node op src =>
    obtain ⟨a, _, step⟩ := step
    split at step
    · rename_i todo known
      obtain rfl := (Option.some.inj step).symm
      obtain ⟨r, _, rest⟩ := Option.bind_eq_some_iff.mp known
      have fewer := callsLeft_length rest
      cases c <;> cases src <;> simp [System.left, System.clientLeft, System.serverLeft, System.onRep, System.setPc, System.setTodo,
        Mailbox.read, Mailbox.finish, pc, Pc.left] <;> omega
    · obtain rfl := (Option.some.inj step).symm
      cases c <;> cases src <;> simp [System.left, System.clientLeft, System.serverLeft, System.onRep, System.setPc,
        Mailbox.read, Mailbox.finish, pc, Pc.left]

theorem handle_left {s : ServerNode} (step : σ.handle s = some σ') : σ'.left prog < σ.left prog := by
  cases spc : σ.spc s <;> simp only [System.handle, spc, reduceCtorEq, Option.bind_eq_bind, Option.bind_eq_some_iff] at step
  case took c =>
    obtain ⟨m, _, step⟩ := step
    split at step
    · obtain rfl := (Option.some.inj step).symm
      cases c <;> cases s <;> simp [System.left, System.clientLeft, System.serverLeft, System.onReq, System.setSrv, System.setSpc,
        Mailbox.read, Mailbox.finish, spc, SrvPc.left]
    · rename_i dst a _
      obtain rfl := (Option.some.inj step).symm
      cases c <;> cases s <;> cases dst <;> simp [System.left, System.clientLeft, System.serverLeft, System.onReq, System.onRep,
        System.setSrv, System.setSpc, Mailbox.read, Mailbox.write, spc, SrvPc.left]

theorem Ok.reply_left (ok : Ok σ) (step : σ.reply s = some σ') : σ'.left prog < σ.left prog := by
  cases spc : σ.spc s <;> simp only [System.reply, spc, reduceCtorEq] at step
  case answers c dst =>
    obtain ⟨rfl, room, _⟩ := ok.reply spc
    have one := length_toList (σ.rep s dst).written
    rw [if_pos room, Option.some.injEq] at step
    rw [← step]
    cases dst <;> cases s <;> simp [System.left, System.clientLeft, System.serverLeft, System.onReq, System.onRep, System.setSpc,
      Mailbox.send, Mailbox.finish, spc, SrvPc.left] <;> omega

/-- **Every step** brings down what is left. -/
theorem Ok.step_left (ok : Ok σ) (step : σ.step prog a = some σ') : σ'.left prog < σ.left prog := by
  cases a with
  | call c =>
    simp only [System.step, Option.bind_eq_bind, Option.bind_eq_some_iff, Option.guard_eq_some'] at step
    obtain ⟨_, ⟨rests, calls⟩, step⟩ := step
    cases todo : σ.todo c with
    | nil => simp [todo] at step
    | cons op rest =>
      simp only [todo, Option.pure_def, Option.some.injEq] at step
      rw [← step]
      generalize op.node hash = s
      cases c <;> cases s <;> simp [System.left, System.clientLeft, System.serverLeft, System.onReq, System.setPc, System.setTodo,
        Mailbox.write, rests, todo, Pc.left] <;> omega
  | disconnect c =>
    simp only [System.step, Option.bind_eq_bind, Option.bind_eq_some_iff, Option.guard_eq_some', Option.pure_def, Option.some.injEq,
      Prod.exists] at step
    obtain ⟨_, rests, s, m, cause, rfl⟩ := step
    cases c <;> cases s <;> simp [System.left, System.clientLeft, System.serverLeft, System.onReq, System.setPc, Mailbox.write, rests,
      Pc.left]
  | advance c =>
    simp only [System.step, Option.bind_eq_bind, Option.bind_eq_some_iff, Option.guard_eq_some'] at step
    obtain ⟨_, rests, step⟩ := step
    exact advance_left step
  | send c => exact ok.send_left step
  | recv c s =>
    cases pc : σ.pc c <;> simp only [System.step, pc, reduceCtorEq, Option.bind_eq_bind, Option.bind_eq_some_iff, Option.guard_eq_some',
      Option.pure_def, Option.some.injEq] at step
    case waits node op =>
      obtain ⟨_, more, rfl⟩ := step
      have positive := List.length_pos_iff.mpr more
      cases c <;> cases s <;> simp [System.left, System.clientLeft, System.serverLeft, System.onRep, System.setPc, Mailbox.recv, pc, Pc.left]
        <;> omega
  | answer c => exact answer_left step
  | take s c =>
    simp only [System.step, Option.bind_eq_bind, Option.bind_eq_some_iff, Option.guard_eq_some', Option.pure_def, Option.some.injEq] at step
    obtain ⟨_, ⟨polls, _, more⟩, rfl⟩ := step
    have positive := List.length_pos_iff.mpr more
    cases c <;> cases s <;> simp [System.left, System.clientLeft, System.serverLeft, System.onReq, System.setSpc, Mailbox.recv, polls,
      SrvPc.left] <;> omega
  | handle s => exact handle_left step
  | reply s => exact ok.reply_left step

theorem run_left {n : Nat} (run : Run prog System.careful n σ) : n + σ.left prog ≤ (System.init prog : System hash slab).left prog := by
  induction run with
  | init => exact Nat.le_of_eq (Nat.zero_add _)
  | step run careful step ih =>
    have less := (run_ok run).step_left step
    omega

/-! ## Every message once -/

/-- Each message that was sent was handled once, in order and with what it held then, or is still pending; and each call
that was handled has one answer of its server, sent or written. -/
structure Delivered (σ : System hash slab) : Prop where
  requests : ∀ c s, (σ.req c s).sent = (σ.req c s).handled ++ (σ.req c s).pending.map (σ.req c s).buf
  answers : ∀ s c, (σ.rep s c).sent = (σ.rep s c).handled ++ (σ.rep s c).pending.map (σ.rep s c).buf
  replies : ∀ c s, List.Forall₂ (Replied s) (callsOf (σ.req c s).handled) ((σ.rep s c).sent ++ (σ.rep s c).written.toList.map (σ.rep s c).buf)

/-- All that was sent was handled, every call has its answer, and MC_BEGIN has reached the servers it was sent to. -/
structure Settled (σ : System hash slab) : Prop where
  requests : ∀ c s, (σ.req c s).handled = (σ.req c s).sent
  answers : ∀ s c, (σ.rep s c).handled = (σ.rep s c).sent
  replies : ∀ c s, List.Forall₂ (Replied s) (callsOf (σ.req c s).sent) (σ.rep s c).handled
  begun : ∀ s, (σ.stage .c2).after s = true → (σ.srv s).loading = false

theorem Ok.delivered (ok : Ok σ) : Delivered σ :=
  ⟨fun c s => (ok.pair c s).req.contents, fun s c => (ok.pair c s).rep.contents, fun c s => (ok.pair c s).replies⟩

theorem pending_nil {M : Type} {p : Mailbox M} (empty : p.flight = []) : p.pending = [] :=
  List.eq_nil_iff_forall_not_mem.mpr fun b inside => by
    have member := p.pending_subset inside
    rw [(flight_nil empty).1] at member
    cases member

theorem Ok.settled (ok : Ok σ) (final : Final prog σ) : Settled σ := by
  have delivered := ok.delivered
  have requests (c : ClientNode) (s : ServerNode) : (σ.req c s).handled = (σ.req c s).sent := by
    have all := delivered.requests c s
    rw [pending_nil (ok.final final c s).1] at all
    simpa using all.symm
  have answers (s : ServerNode) (c : ClientNode) : (σ.rep s c).handled = (σ.rep s c).sent := by
    have all := delivered.answers s c
    rw [pending_nil (ok.final final c s).2.1] at all
    simpa using all.symm
  refine ⟨requests, answers, ?_, ?_⟩
  · intro c s
    have replies := delivered.replies c s
    rw [(flight_nil (ok.final final c s).2.1).2, requests c s] at replies
    rw [answers s c]
    simpa using replies
  · intro s sent
    have nothing := (ok.final final .c2 s).2.2
    by_contra loading
    rw [Bool.not_eq_false] at loading
    simp [System.due, sent, loading] at nothing

/-- **Every message is handled once.** Whatever keys and traces the clients have, a run whose steps wait for MC_BEGIN has a
bounded number of steps; in every state of it each message that was sent was handled once with its contents or is pending,
and where no step is left all of them were handled and answered. -/
theorem every_message_once (hash : List UInt8 → Nat) (slab : Slab) (prog : Program) :
    ∃ bound, ∀ n (σ : System hash slab), Run prog System.careful n σ → n ≤ bound ∧ Delivered σ ∧ (Final prog σ → Settled σ) := by
  refine ⟨(System.init prog : System hash slab).left prog, fun n σ run => ?_⟩
  have ok := run_ok run
  have bound := run_left run
  exact ⟨by omega, ok.delivered, ok.settled⟩

theorem run_foldlM {meets : System hash slab → Act → Prop} [∀ σ a, Decidable (meets σ a)] {n : Nat} (acts : List Act)
    (run : Run prog meets n σ) (steps : acts.foldlM (fun σ a => if meets σ a then σ.step prog a else none) σ = some σ') :
    Run prog meets (n + acts.length) σ' := by
  induction acts generalizing σ n with
  | nil =>
    obtain rfl : σ = σ' := by simpa using steps
    exact run
  | cons a acts ih =>
    rw [List.foldlM_cons, Option.bind_eq_bind, Option.bind_eq_some_iff] at steps
    obtain ⟨σ₁, step, rest⟩ := steps
    rw [Option.ite_none_right_eq_some] at step
    have more := ih (run.step step.1 step.2) rest
    rwa [List.length_cons, ← Nat.add_assoc, Nat.add_right_comm]

end

/-- A slab, a key and a program, for examples. -/
def smallSlab : Slab := ⟨List.range 31, List.nodup_range, by decide⟩
def someKey : Key := ⟨List.replicate keyLength 97, List.length_replicate⟩
def oneKey : Program := ⟨[someKey], fun _ => [.get someKey]⟩

/-- Client 2 loads a key, both servers begin, and it gets the key. -/
theorem every_message_once_begins : ∃ bound n, ∃ σ : System (fun _ => 0) smallSlab, Run oneKey System.careful n σ ∧ n ≤ bound ∧
    (σ.req .c2 .s0).handled = [some (.set .c2 someKey dollars), some (.mcBegin .c2), some (.get .c2 someKey)] ∧ Delivered σ := by
  let acts : List Act := [.call .c2, .send .c2, .take .s0 .c2, .handle .s0, .reply .s0, .recv .c2 .s0, .answer .c2, .advance .c2,
    .disconnect .c2, .send .c2, .disconnect .c2, .send .c2, .advance .c2, .advance .c3, .advance .c2, .take .s0 .c2, .handle .s0,
    .call .c2, .send .c2, .take .s0 .c2, .handle .s0, .reply .s0]
  have run : (acts.foldlM (fun σ a => if System.careful σ a then σ.step oneKey a else none)
      (System.init oneKey : System (fun _ => 0) smallSlab)).map (fun σ => (σ.req .c2 .s0).handled) =
        some [some (.set .c2 someKey dollars), some (.mcBegin .c2), some (.get .c2 someKey)] := by
    decide +kernel
  obtain ⟨σ, reached, handled⟩ := Option.map_eq_some_iff.mp run
  have reach := run_foldlM acts .init reached
  obtain ⟨bound, every⟩ := every_message_once (fun _ => 0) smallSlab oneKey
  obtain ⟨short, delivered, _⟩ := every _ σ reach
  exact ⟨bound, _, σ, reach, short, handled, delivered⟩

/-- Client 2 goes on before server 0 has taken its MC_BEGIN: the server finds the GET in the buffer twice, answers it twice,
and is still loading. -/
theorem begin_overwritten : ∃ n, ∃ σ : System (fun _ => 0) smallSlab, Run oneKey (fun _ _ => True) n σ ∧
    (σ.req .c2 .s0).sent = [some (.set .c2 someKey dollars), some (.mcBegin .c2), some (.get .c2 someKey)] ∧
    (σ.req .c2 .s0).handled = [some (.set .c2 someKey dollars), some (.get .c2 someKey), some (.get .c2 someKey)] ∧
    (σ.srv .s0).loading = true ∧ (σ.rep .s0 .c2).sent.length = 3 ∧ ¬ Delivered σ := by
  let acts : List Act := [.call .c2, .send .c2, .take .s0 .c2, .handle .s0, .reply .s0, .recv .c2 .s0, .answer .c2, .advance .c2,
    .disconnect .c2, .send .c2, .disconnect .c2, .send .c2, .advance .c2, .advance .c3, .advance .c2, .call .c2, .send .c2,
    .take .s0 .c2, .handle .s0, .reply .s0, .take .s0 .c2, .handle .s0, .reply .s0]
  have run : (acts.foldlM (fun σ a => if True then σ.step oneKey a else none) (System.init oneKey : System (fun _ => 0) smallSlab)).map
      (fun σ => ((σ.req .c2 .s0).sent, (σ.req .c2 .s0).handled, (σ.req .c2 .s0).pending, (σ.srv .s0).loading, (σ.rep .s0 .c2).sent.length)) =
        some ([some (.set .c2 someKey dollars), some (.mcBegin .c2), some (.get .c2 someKey)],
          [some (.set .c2 someKey dollars), some (.get .c2 someKey), some (.get .c2 someKey)], [], true, 3) := by
    decide +kernel
  obtain ⟨σ, reached, seen⟩ := Option.map_eq_some_iff.mp run
  simp only [Prod.mk.injEq] at seen
  obtain ⟨sent, handled, pending, loading, replies⟩ := seen
  refine ⟨_, σ, run_foldlM acts .init reached, sent, handled, loading, replies, fun delivered => ?_⟩
  have same := delivered.requests .c2 .s0
  rw [sent, handled, pending] at same
  simp at same

end BiProject.MpMc
