import BiProject.TwoPc.Programs

/-!
# The course of a run

Where a client is in its program tells what it may still send, and the order in which `rpc_recv` looks into the queues tells
what a server has taken before. Client 2 sends its MC_BEGIN to server 1 before client 3 begins, and server 1 looks into the queue
of client 2 first: so it takes that message at the latest after the first request of client 3, long before MC_EXIT.
-/

namespace BiProject.TwoPc
set_option autoImplicit false
open BiProject.McServer BiProject.Lib

section
variable {hash : List UInt8 → Nat} {σ σ' : Buffered hash} {τ : System hash} {n src dst : Node} {s c d : Side} {m m' : McMsg}

/-! ## What a step does -/

/-- What the nodes are after a step in which no server fails. -/
inductive Move (σ : Buffered hash) : BufAct → Buffered hash → Prop where
  | call {c : Side} {op : Op} (rests : σ.rests c) (allows : (σ.stage c).allows op = true) :
      Move σ (.call c op) { σ.write (.client c) (.server c) (op.request c) with client := Function.update σ.client c op.pc }
  | disconnect {c : Side} {dst : Node} {m : McMsg} (rests : σ.rests c) (cause : (σ.stage c).disconnect c = some (dst, m)) :
      Move σ (.disconnect c) (σ.write (.client c) dst m)
  | advance {c : Side} {σ' : Buffered hash} (rests : σ.rests c) (next : σ.advance c = some σ') : Move σ (.advance c) σ'
  | request {c : Side} {op : Op} (sending : σ.sending (.client c) = some (.server c)) (pc : σ.client c = op.pc)
      (drafted : (σ.box (.client c) (.server c)).draft = some (op.request c)) :
      Move σ (.send (.client c)) ((σ.onBox (.client c) (.server c) Mailbox.send).setSending (.client c) none)
  | control {c : Side} {dst : Node} {m : McMsg} (sending : σ.sending (.client c) = some dst) (idle : σ.client c = .idle)
      (cause : (σ.stage c).disconnect c = some (dst, m)) (drafted : (σ.box (.client c) dst).draft = some m) :
      Move σ (.send (.client c)) { (σ.onBox (.client c) dst Mailbox.send).setSending (.client c) none with
        stage := Function.update σ.stage c (σ.stage c).next }
  | reply {s : Side} {src dst : Node} {m m' : McMsg} (sending : σ.sending (.server s) = some dst)
      (reading : σ.reading (.server s) = some src) (apart : src ≠ .server s) (here : (σ.box src (.server s)).content = some m)
      (other : m.isControl = false) (drafted : (σ.box (.server s) dst).draft = some m') (ordinary : m'.isControl = false) :
      Move σ (.send (.server s)) ((((σ.onBox (.server s) dst Mailbox.send).onBox src (.server s) Mailbox.finish).setReading
        (.server s) none).setSending (.server s) none)
  | recv {n src : Node} (polls : σ.polls n) (more : (σ.box src n).queue ≠ []) :
      Move σ (.recv n src) ((σ.onBox src n Mailbox.recv).setReading n (some src))
  | done {s : Side} {src : Node} {m : McMsg} {st : Srv hash} (idle : σ.sending (.server s) = none) (reading : σ.reading (.server s) = some src)
      (here : (σ.box src (.server s)).content = some m) (turn : eventLoop s (σ.srv s) m = .ok (st, none)) (control : m.isControl = true) :
      Move σ (.handle s) (((σ.onBox src (.server s) fun p => p.read.finish).setReading (.server s) none).setSrv s st)
  | handle {s : Side} {src dst : Node} {m m' : McMsg} {st : Srv hash} (idle : σ.sending (.server s) = none)
      (reading : σ.reading (.server s) = some src) (apart : src ≠ .server s) (here : (σ.box src (.server s)).content = some m)
      (turn : eventLoop s (σ.srv s) m = .ok (st, some (dst, m'))) (other : m.isControl = false) :
      Move σ (.handle s) (((σ.onBox src (.server s) Mailbox.read).write (.server s) dst m').setSrv s st)
  | answer {c : Side} {src : Node} {m : McMsg} {r : Res} (reading : σ.reading (.client c) = some src)
      (here : (σ.box src (.client c)).content = some m) (reply : clientReply c (σ.client c) m = .ok r) :
      Move σ (.answer c) { (σ.onBox src (.client c) fun p => p.read.finish).setReading (.client c) none with
        client := Function.update σ.client c .idle }
  | fail {c : Side} {src : Node} {m : McMsg} {x : Assertion} (reading : σ.reading (.client c) = some src)
      (here : (σ.box src (.client c)).content = some m) (reply : clientReply c (σ.client c) m = .error x) :
      Move σ (.answer c) (σ.fail (.client c) x)

/-- **Every step is one of these.** -/
theorem Sim.move {a : BufAct} (sim : Sim σ τ) (step : σ.step a = some σ') (alive : ∀ s, σ'.failed (.server s) = none) : Move σ a σ' := by
  cases a with
  | call c op =>
    simp only [Buffered.step, Option.bind_eq_bind, Option.bind_eq_some_iff, Option.guard_eq_some', Option.pure_def,
      Option.some.injEq] at step
    obtain ⟨_, ⟨rests, allows⟩, rfl⟩ := step
    exact .call rests allows
  | disconnect c =>
    simp only [Buffered.step, Option.bind_eq_bind, Option.bind_eq_some_iff, Option.guard_eq_some', Option.pure_def,
      Option.some.injEq, Prod.exists] at step
    obtain ⟨_, rests, dst, m, cause, rfl⟩ := step
    exact .disconnect rests cause
  | advance c =>
    simp only [Buffered.step, Option.bind_eq_bind, Option.bind_eq_some_iff, Option.guard_eq_some'] at step
    obtain ⟨_, rests, next⟩ := step
    exact .advance rests next
  | send n =>
    simp only [Buffered.step, Option.bind_eq_bind, Option.bind_eq_some_iff, Option.guard_eq_some', Option.pure_def,
      Option.some.injEq] at step
    obtain ⟨_, healthy, dst, sending, rfl⟩ := step
    cases n with
    | server s =>
      obtain ⟨room, _⟩ := sim.turn sending
      obtain ⟨src, m, m', reading, here, other, drafted, turn⟩ := sim.server s dst sending
      have ordinary : m'.isControl = false := (eventLoop_target s turn).2 _ rfl
      have apart : src ≠ .server s := by
        obtain ⟨ph, ok⟩ := sim.ok
        obtain ⟨rest, queue, _⟩ := sim.head here other
        exact (ok.turn_room queue (by rw [← (eventLoop_target s turn).1]; rfl)).1
      simpa [Buffered.rpcSend, room, Buffered.turnDone, reading] using Move.reply sending reading apart here other drafted ordinary
    | client c =>
      obtain ⟨_, room⟩ := sim.client_queue sending
      obtain ⟨m, drafted, ⟨idle, cause⟩ | ⟨op, pc, rfl, rfl⟩⟩ := sim.request c dst sending
      · simpa [Buffered.rpcSend, room, Buffered.sendDone, idle] using Move.control sending idle cause drafted
      · have busy : σ.client c ≠ .idle := by
          rw [pc]
          cases op <;> simp [Op.pc]
        have after : (σ.onBox (.client c) (.server c) Mailbox.send).sendDone c =
            (σ.onBox (.client c) (.server c) Mailbox.send).setSending (.client c) none := by
          rw [Buffered.sendDone, if_neg (show ¬ (σ.onBox (.client c) (.server c) Mailbox.send).client c = .idle from busy),
            Function.update_eq_self]
          rfl
        rw [Buffered.rpcSend, if_pos room, after]
        exact .request sending pc drafted
  | recv n src =>
    simp only [Buffered.step, Option.bind_eq_bind, Option.bind_eq_some_iff, Option.guard_eq_some', Option.pure_def,
      Option.some.injEq] at step
    obtain ⟨_, ⟨polls, more⟩, rfl⟩ := step
    exact .recv polls more
  | handle s =>
    simp only [Buffered.step, Option.bind_eq_bind, Option.bind_eq_some_iff, Option.guard_eq_some'] at step
    obtain ⟨_, ⟨_, idle⟩, src, reading, m, here, step⟩ := step
    split at step
    · obtain rfl := (Option.some.inj step).symm
      have failed := alive s
      simp [Buffered.fail] at failed
    · rename_i st done
      obtain rfl := (Option.some.inj step).symm
      refine .done idle reading here done ?_
      by_contra other
      rw [Bool.not_eq_true] at other
      obtain ⟨ph, ok⟩ := sim.ok
      obtain ⟨rest, queue, _⟩ := sim.head here other
      have target := (eventLoop_target s done).1
      cases ok.taken queue <;> simp [Srv.target] at target
    · rename_i st dst m' done
      obtain rfl := (Option.some.inj step).symm
      have target : (σ.srv s).target s m = some dst := by
        rw [← (eventLoop_target s done).1]
        rfl
      refine .handle idle reading (sim.server_room idle here target).1 here done ?_
      cases m <;> simp [Srv.target] at target <;> rfl
  | answer c =>
    simp only [Buffered.step, Option.bind_eq_bind, Option.bind_eq_some_iff, Option.guard_eq_some'] at step
    obtain ⟨_, healthy, src, reading, m, here, step⟩ := step
    split at step
    · rename_i x reply
      obtain rfl := (Option.some.inj step).symm
      exact .fail reading here reply
    · rename_i r reply
      obtain rfl := (Option.some.inj step).symm
      exact .answer reading here reply

/-! ## What a box carries -/

/-- What a step does to the messages of a pair: nothing, it sends one, its receiver takes one, handles one, or is through with it. -/
inductive Carries (p p' : Mailbox McMsg) (sends takes reads : Prop) : Prop where
  | stays (unfinished : p'.unfinished = p.unfinished) (queue : p'.queue = p.queue) (handled : p'.handled = p.handled) (sent : p'.sent = p.sent)
  | sends {m : McMsg} {i : Nat} (why : sends) (drafted : p.draft = some m) (unfinished : p'.unfinished = p.unfinished ++ [some m])
      (queue : p'.queue = p.queue ++ [i]) (handled : p'.handled = p.handled) (sent : p'.sent = p.sent ++ [some m])
  | takes (why : takes) (unfinished : p'.unfinished = p.unfinished) (queue : p'.queue = p.queue.tail) (handled : p'.handled = p.handled)
      (sent : p'.sent = p.sent)
  | handles {m : McMsg} (why : reads) (here : p.content = some m) (unfinished : p'.unfinished = p.unfinished) (queue : p'.queue = p.queue)
      (handled : p'.handled = p.handled ++ [some m]) (sent : p'.sent = p.sent)
  | ends {m : McMsg} (why : reads) (here : p.content = some m) (unfinished : p.unfinished = some m :: p'.unfinished) (queue : p'.queue = p.queue)
      (handled : p'.handled = p.handled ∨ p'.handled = p.handled ++ [some m]) (sent : p'.sent = p.sent)

/-- Sending carries one message. -/
theorem carries_send {p : Mailbox McMsg} {takes reads : Prop} (drafted : p.draft = some m) : Carries p p.send True takes reads := by
  obtain ⟨i, written, here⟩ := Option.bind_eq_some_iff.mp drafted
  refine .sends trivial drafted (Mailbox.send_unfinished drafted) (i := i) ?_ rfl ?_
  · simp [Mailbox.send, written]
  · simp [Mailbox.send, written, here]

/-- What a write leaves of every box. -/
theorem Sim.write_stays (sim : Sim σ τ) (idle : σ.sending n = none) (room : (σ.box n dst).unfinished.length ≤ 1) (m : McMsg)
    {sends takes reads : Prop}
    (a b : Node) : Carries (σ.box a b) ((σ.write n dst m).box a b) sends takes reads := by
  refine .stays (write_box sim.boxes idle room m a b).1 ?_ ?_ ?_ <;>
    simp only [Buffered.write, setSending_box, onBox_box] <;> split <;> rfl

/-- **Each step** does one of these to each pair. -/
theorem Move.carries {a : BufAct} (sim : Sim σ τ) (move : Move σ a σ') (src dst : Node) :
    Carries (σ.box src dst) (σ'.box src dst) (a = .send src ∧ σ.sending src = some dst) (a = .recv dst src) (σ.reading dst = some src) := by
  have still : ∀ {p : Mailbox McMsg} {sends takes reads : Prop}, Carries p p sends takes reads := .stays rfl rfl rfl rfl
  cases move with
  | call rests allows => exact sim.write_stays rests.2.2 (sim.client_room rests (Stage.controls_allows allows _)) _ src dst
  | disconnect rests cause => exact sim.write_stays rests.2.2 (sim.client_room rests (Stage.controls_disconnect cause _)) _ src dst
  | advance rests next =>
    obtain ⟨stage, k, rfl, _⟩ := advance_cases next
    exact still
  | @request c op sending pc drafted =>
    by_cases here : src = .client c ∧ dst = .server c
    · obtain ⟨rfl, rfl⟩ := here
      simpa [sending] using carries_send drafted
    · simpa [here] using still
  | @control c dst' m sending idle cause drafted =>
    by_cases here : src = .client c ∧ dst = dst'
    · obtain ⟨rfl, rfl⟩ := here
      simpa [sending] using carries_send drafted
    · simpa [here] using still
  | @reply s src' dst' m m' sending reading apart here other drafted ordinary =>
    by_cases first : src = .server s ∧ dst = dst'
    · obtain ⟨rfl, rfl⟩ := first
      simpa [sending, Ne.symm apart] using carries_send drafted
    · by_cases second : src = src' ∧ dst = .server s
      · obtain ⟨rfl, rfl⟩ := second
        simpa [apart] using .ends reading here (Mailbox.unfinished_cons here) rfl (Or.inl rfl) rfl
      · simpa [first, second] using still
  | @recv n src' polls more =>
    by_cases here : src = src' ∧ dst = n
    · obtain ⟨rfl, rfl⟩ := here
      simpa using .takes trivial (Mailbox.recv_unfinished (sim.boxes.taken_none polls.2.1 src)) rfl rfl rfl
    · simpa [here] using still
  | @done s src' m st idle reading here turn control =>
    by_cases place : src = src' ∧ dst = .server s
    · obtain ⟨rfl, rfl⟩ := place
      simpa using .ends reading here (Mailbox.unfinished_cons here) rfl (Or.inr (by simp [Mailbox.read, Mailbox.finish, here])) rfl
    · simpa [place] using still
  | @handle s src' dst' m m' st idle reading apart here turn other =>
    have target : (σ.srv s).target s m = some dst' := by
      rw [← (eventLoop_target s turn).1]
      rfl
    obtain ⟨_, room⟩ := sim.server_room idle here target
    by_cases place : src = src' ∧ dst = .server s
    · obtain ⟨rfl, rfl⟩ := place
      simpa [Buffered.write, apart] using .handles reading here rfl rfl (by simp [Mailbox.read, here]) rfl
    · simpa [Buffered.write, place] using sim.write_stays idle room m' src dst
  | @answer c src' m r reading here reply =>
    by_cases place : src = src' ∧ dst = .client c
    · obtain ⟨rfl, rfl⟩ := place
      simpa using .ends reading here (Mailbox.unfinished_cons here) rfl (Or.inr (by simp [Mailbox.read, Mailbox.finish, here])) rfl
    · simpa [place] using still
  | fail => exact still

/-! ## Values -/

/-- Every value is made of `$`. -/
def McMsg.Dollars : McMsg → Prop
  | .set _ _ data | .prepare _ _ data | .prepareOk _ _ data | .commit _ _ data => data = dollars
  | .getOk _ data => data = dollars.1
  | _ => True

/-- The tables and the buffers hold no other value, so no client fails. -/
structure Values (σ : Buffered hash) : Prop where
  tables : ∀ s key data, (σ.srv s).table.mcGetKeyExt key = some data → data = dollars.1
  bufs : ∀ src dst i m, (σ.box src dst).buf i = some m → m.Dollars
  healthy : ∀ c, σ.failed (.client c) = none

/-- There are no values at the start. -/
theorem Values.init : Values (Buffered.init : Buffered hash) := by
  constructor
  · intro s key data found
    simp [Buffered.init, Srv.init] at found
  · intro src dst i m here
    simp [Buffered.init, Mailbox.empty] at here
  · exact fun _ => rfl

/-- A SET of `$` leaves a table of nothing else. -/
theorem table_set {t : Table hash} (values : ∀ key data, t.mcGetKeyExt key = some data → data = dollars.1) (key : Key) (k : Key) (data : List UInt8)
    (found : (t.mcSetKeyExt key dollars).mcGetKeyExt k = some data) : data = dollars.1 := by
  rw [Table.set_get] at found
  split at found
  · exact (Option.some.inj found).symm
  · exact values k data found

/-- A handler makes no other value of them. -/
theorem eventLoop_dollars {st st' : Srv hash} {out : Option (Node × McMsg)} (turn : eventLoop s st m = .ok (st', out))
    (tables : ∀ key data, st.table.mcGetKeyExt key = some data → data = dollars.1) (good : m.Dollars) :
    (∀ key data, st'.table.mcGetKeyExt key = some data → data = dollars.1) ∧ ∀ x ∈ out, x.2.Dollars := by
  cases m with
  | get sender key =>
    simp only [eventLoop, bind_eq_ok] at turn
    obtain ⟨_, _, turn⟩ := turn
    split at turn
    · rename_i data found
      cases turn
      exact ⟨tables, by simpa [McMsg.Dollars] using tables key data found⟩
    · cases turn
      exact ⟨tables, by simp [McMsg.Dollars]⟩
  | set sender key data =>
    simp only [eventLoop, bind_eq_ok, Prod.exists] at turn
    obtain ⟨_, _, r, log, _, _, _, turn⟩ := turn
    cases turn
    exact ⟨tables, by simpa [McMsg.Dollars] using good⟩
  | prepare sender key data =>
    simp only [eventLoop, bind_eq_ok, Prod.exists] at turn
    obtain ⟨_, _, r, log, _, _, _, turn⟩ := turn
    cases turn
    exact ⟨tables, by simpa [McMsg.Dollars] using good⟩
  | prepareOk sender key data =>
    simp only [eventLoop, bind_eq_ok] at turn
    obtain ⟨_, _, log, _, turn⟩ := turn
    cases turn
    obtain rfl : data = dollars := good
    exact ⟨fun k x => table_set tables key k x, by simp [McMsg.Dollars]⟩
  | commit sender key data =>
    simp only [eventLoop, bind_eq_ok] at turn
    obtain ⟨_, _, log, _, turn⟩ := turn
    cases turn
    obtain rfl : data = dollars := good
    exact ⟨fun k x => table_set tables key k x, by simp [McMsg.Dollars]⟩
  | commitOk sender =>
    simp only [eventLoop, bind_eq_ok] at turn
    obtain ⟨_, _, _, _, turn⟩ := turn
    cases turn
    exact ⟨tables, by simp [McMsg.Dollars]⟩
  | _ =>
    cases turn
    exact ⟨tables, by simp⟩

/-- What is read is such a message. -/
theorem Values.content (values : Values σ) (here : (σ.box src dst).content = some m) : m.Dollars := by
  obtain ⟨i, _, holds⟩ := Option.bind_eq_some_iff.mp here
  exact values.bufs src dst i m holds

/-- **A client's assertions hold**: what it takes is the answer to its request, with a value of `$`. -/
theorem Sim.reply_ok (sim : Sim σ τ) (values : Values σ) (reading : σ.reading (.client c) = some src)
    (here : (σ.box src (.client c)).content = some m) : ∃ r, clientReply c (σ.client c) m = .ok r := by
  obtain ⟨idle, busy⟩ := sim.waits c (by simp [reading])
  obtain ⟨ph, ok⟩ := sim.ok
  obtain ⟨rest, queue, _⟩ := sim.head here (sim.answer_plain here)
  have pc : σ.client c = (ph c).pc := by
    rw [← ok.pc, sim.client, if_pos idle]
  have inUse : used src (.client c) := by
    by_contra unused
    rw [ok.quiet _ _ unused] at queue
    cases queue
  obtain rfl : src = .server c := by
    cases src with
    | server s => exact congrArg Node.server inUse.symm
    | client d => exact inUse.elim
  have good := values.content here
  rw [ok.rep] at queue
  cases was : ph c with
  | got key data =>
    obtain ⟨rfl, _⟩ : getAnswer c data = m ∧ rest = [] := by simpa [was] using queue
    cases data with
    | none => exact ⟨.got none, by simp [pc, was, clientReply, getAnswer, McMsg.id, assert, bind, Except.bind, pure, Except.pure]⟩
    | some data =>
      obtain rfl : data = dollars.1 := good
      refine ⟨.got (some dollars.1), ?_⟩
      have whole : dollars.1.length = vLength := dollars.2
      have first : dollars.1.head? = some 36 := by decide
      simp [pc, was, clientReply, getAnswer, McMsg.id, assert, bind, Except.bind, pure, Except.pure, whole, first]
  | setOk key data =>
    obtain ⟨rfl, _⟩ : .setOk (.server c) = m ∧ rest = [] := by simpa [was] using queue
    exact ⟨.stored, by simp [pc, was, clientReply, McMsg.id, assert, bind, Except.bind, pure, Except.pure]⟩
  | _ => simp [was] at queue

/-- The buffers of a write. -/
theorem write_bufs (bufs : ∀ src dst i m, (σ.box src dst).buf i = some m → m.Dollars) (good : m.Dollars) (a b : Node) (i : Nat) (x : McMsg)
    (here : ((σ.write n dst m).box a b).buf i = some x) : x.Dollars := by
  simp only [Buffered.write, setSending_box, onBox_box] at here
  split at here
  · simp only [Mailbox.write, Function.update_apply] at here
    split at here
    · obtain rfl := Option.some.inj here
      exact good
    · exact bufs a b i x here
  · exact bufs a b i x here

/-- The buffers where none is written to. -/
theorem onBox_bufs {f : Mailbox McMsg → Mailbox McMsg} (bufs : ∀ src dst i m, (σ.box src dst).buf i = some m → m.Dollars)
    (same : ∀ p, (f p).buf = p.buf) (a b : Node) (i : Nat) (x : McMsg) (here : ((σ.onBox src dst f).box a b).buf i = some x) : x.Dollars := by
  rw [onBox_box] at here
  split at here
  · rw [same] at here
    exact bufs a b i x here
  · exact bufs a b i x here

/-- **Each step** keeps the values. -/
theorem Values.step {a : BufAct} (sim : Sim σ τ) (values : Values σ) (move : Move σ a σ')
    (good : ∀ c op, a = .call c op → (op.request c).Dollars) : Values σ' := by
  obtain ⟨tables, bufs, healthy⟩ := values
  cases move with
  | call rests allows => exact ⟨tables, write_bufs bufs (good _ _ rfl), healthy⟩
  | disconnect rests cause =>
    refine ⟨tables, write_bufs bufs ?_, healthy⟩
    revert cause
    unfold Stage.disconnect
    split <;> rintro ⟨⟩ <;> trivial
  | advance rests next =>
    obtain ⟨stage, k, rfl, _⟩ := advance_cases next
    exact ⟨tables, bufs, healthy⟩
  | request => exact ⟨tables, onBox_bufs (f := Mailbox.send) bufs fun _ => rfl, healthy⟩
  | control => exact ⟨tables, onBox_bufs (f := Mailbox.send) bufs fun _ => rfl, healthy⟩
  | reply => exact ⟨tables, onBox_bufs (f := Mailbox.finish) (onBox_bufs (f := Mailbox.send) bufs fun _ => rfl) fun _ => rfl, healthy⟩
  | recv => exact ⟨tables, onBox_bufs (f := Mailbox.recv) bufs fun _ => rfl, healthy⟩
  | @done s src m st idle reading here turn control =>
    have kept := (eventLoop_dollars turn (tables s) (Values.content ⟨tables, bufs, healthy⟩ here)).1
    refine ⟨fun t key data found => ?_, onBox_bufs (f := fun p => p.read.finish) bufs fun _ => rfl, healthy⟩
    by_cases same : t = s
    · subst same
      exact kept key data (by simpa using found)
    · exact tables t key data (by simpa [same] using found)
  | @handle s src dst m m' st idle reading apart here turn other =>
    obtain ⟨kept, out⟩ := eventLoop_dollars turn (tables s) (Values.content ⟨tables, bufs, healthy⟩ here)
    refine ⟨fun t key data found => ?_, ?_, healthy⟩
    · by_cases same : t = s
      · subst same
        exact kept key data (by simpa using found)
      · exact tables t key data (by simpa [same] using found)
    · exact write_bufs (onBox_bufs (f := Mailbox.read) bufs fun _ => rfl) (out _ rfl)
  | answer => exact ⟨tables, onBox_bufs (f := fun p => p.read.finish) bufs fun _ => rfl, healthy⟩
  | fail reading here reply =>
    obtain ⟨r, done⟩ := sim.reply_ok ⟨tables, bufs, healthy⟩ reading here
    rw [done] at reply
    cases reply

/-! ## Where the clients meet -/

/-- How often a client has come to `rpc_sync`. -/
def Stage.met : Stage → Nat
  | .preload | .begin0 | .begin1 | .sync1 => 0
  | .wait1 | .bench | .sync2 => 1
  | .wait2 | .exit | .done => 2

/-- The clients have met once, -/
def Stage.begun : Stage → Bool
  | .bench | .sync2 | .wait2 | .exit | .done => true
  | _ => false

/-- and twice. -/
def Stage.ended : Stage → Bool
  | .exit | .done => true
  | _ => false

/-- A client may have calls to make. -/
def Stage.busy : Stage → Bool
  | .preload | .bench => true
  | _ => false

/-- Only client 2 loads keys and begins. -/
def Stage.loads : Stage → Bool
  | .preload | .begin0 | .begin1 => true
  | _ => false

/-- The counter of `rpc_sync` says how often both have come to it, and no client goes on before the other has come. -/
structure Meets (σ : Buffered hash) : Prop where
  count : σ.meeting = (σ.stage node0).met + (σ.stage node1).met
  begun : ∀ c d, (σ.stage c).begun = true → 1 ≤ (σ.stage d).met
  ended : ∀ c d, (σ.stage c).ended = true → (σ.stage d).met = 2
  loads : (σ.stage node1).loads = false
  busy : ∀ c, σ.client c ≠ .idle → (σ.stage c).busy = true

/-- Nobody has come to it at the start. -/
theorem Meets.init : Meets (Buffered.init : Buffered hash) := by
  constructor
  · rfl
  · intro c d before
    simp only [Buffered.init] at before
    split at before <;> cases before
  · intro c d before
    simp only [Buffered.init] at before
    split at before <;> cases before
  · rfl
  · exact fun c busy => absurd rfl busy

/-- There are two clients. -/
theorem side_total (c : Side) : c = node0 ∨ c = node1 := by
  revert c
  decide

/-- A client that has come to `rpc_sync` no more often than before. -/
theorem Meets.stage (meets : Meets σ) {stage : Stage} (met : stage.met = (σ.stage c).met) (begun : stage.begun = (σ.stage c).begun)
    (ended : stage.ended = (σ.stage c).ended) (loads : stage.loads = true → (σ.stage c).loads = true) (idle : σ.client c = .idle) :
    Meets { σ with stage := Function.update σ.stage c stage } := by
  have mets : ∀ d, (Function.update σ.stage c stage d).met = (σ.stage d).met := by
    intro d
    by_cases same : d = c
    · subst same
      simpa using met
    · simp [same]
  constructor
  · change σ.meeting = (Function.update σ.stage c stage node0).met + (Function.update σ.stage c stage node1).met
    rw [mets, mets]
    exact meets.count
  · intro d e before
    change 1 ≤ (Function.update σ.stage c stage e).met
    rw [mets]
    refine meets.begun d e ?_
    by_cases same : d = c
    · subst same
      simpa [begun] using before
    · simpa [same] using before
  · intro d e before
    change (Function.update σ.stage c stage e).met = 2
    rw [mets]
    refine meets.ended d e ?_
    by_cases same : d = c
    · subst same
      simpa [ended] using before
    · simpa [same] using before
  · have before := meets.loads
    change (Function.update σ.stage c stage node1).loads = false
    by_cases same : node1 = c
    · subst same
      rw [Function.update_self]
      by_contra now
      rw [Bool.not_eq_false] at now
      rw [loads now] at before
      cases before
    · rwa [Function.update_of_ne same]
  · intro d calls
    have differ : d ≠ c := by
      rintro rfl
      exact calls idle
    simpa [differ] using meets.busy d calls

/-- `rpc_sync` adds one. -/
theorem Meets.sync (meets : Meets σ) (idle : σ.client c = .idle) {stage : Stage}
    (now : σ.stage c = .sync1 ∧ stage = .wait1 ∨ σ.stage c = .sync2 ∧ stage = .wait2) :
    Meets { σ with stage := Function.update σ.stage c stage, meeting := σ.meeting + 1 } := by
  obtain ⟨count, begun, ended, loads, busy⟩ := meets
  have first := begun c
  have second := ended c
  constructor
  · change σ.meeting + 1 = (Function.update σ.stage c stage node0).met + (Function.update σ.stage c stage node1).met
    obtain rfl | rfl := side_total c <;> rcases now with ⟨was, rfl⟩ | ⟨was, rfl⟩ <;> simp [was, Stage.met] at count ⊢ <;> omega
  · intro d e before
    change 1 ≤ (Function.update σ.stage c stage e).met
    have more := begun d e
    have other := begun c e
    rcases now with ⟨was, rfl⟩ | ⟨was, rfl⟩ <;> grind [Stage.met, Stage.begun, Function.update_apply]
  · intro d e before
    change (Function.update σ.stage c stage e).met = 2
    have more := ended d e
    rcases now with ⟨was, rfl⟩ | ⟨was, rfl⟩ <;> grind [Stage.met, Stage.ended, Function.update_apply]
  · change (Function.update σ.stage c stage node1).loads = false
    rcases now with ⟨was, rfl⟩ | ⟨was, rfl⟩ <;> grind [Stage.loads, Function.update_apply]
  · intro d calls
    have differ : d ≠ c := by
      rintro rfl
      exact calls idle
    simpa [differ] using busy d calls

/-- A client has seen that the other one has come too. -/
theorem Meets.pass (meets : Meets σ) (idle : σ.client c = .idle) {stage : Stage}
    (now : σ.stage c = .wait1 ∧ σ.meeting = 2 ∧ stage = .bench ∨ σ.stage c = .wait2 ∧ σ.meeting = 4 ∧ stage = .exit) :
    Meets { σ with stage := Function.update σ.stage c stage } := by
  obtain ⟨count, begun, ended, loads, busy⟩ := meets
  have most : ∀ s : Stage, s.met ≤ 2 := fun s => by cases s <;> simp [Stage.met]
  -- the sum tells how often the other client has come
  have other : ∀ d, 1 ≤ (σ.stage d).met ∧ (stage = .exit → (σ.stage d).met = 2) := by
    have zero := most (σ.stage node0)
    have one := most (σ.stage node1)
    have begun₀ := begun node0 node1
    have begun₁ := begun node1 node0
    intro d
    obtain rfl | rfl := side_total c <;> obtain rfl | rfl := side_total d <;> rcases now with ⟨was, full, rfl⟩ | ⟨was, full, rfl⟩ <;>
      simp [was, full, Stage.met, Stage.begun] at count begun₀ begun₁ ⊢ <;> grind [Stage.met, Stage.begun]
  have met : stage.met = (σ.stage c).met := by
    rcases now with ⟨was, _, rfl⟩ | ⟨was, _, rfl⟩ <;> rw [was] <;> rfl
  have mets : ∀ d, (Function.update σ.stage c stage d).met = (σ.stage d).met := by
    intro d
    by_cases same : d = c
    · subst same
      simpa using met
    · simp [same]
  constructor
  · change σ.meeting = (Function.update σ.stage c stage node0).met + (Function.update σ.stage c stage node1).met
    rw [mets, mets]
    exact count
  · intro d e before
    change 1 ≤ (Function.update σ.stage c stage e).met
    rw [mets]
    exact (other e).1
  · intro d e before
    change (Function.update σ.stage c stage e).met = 2
    rw [mets]
    by_cases same : d = c
    · subst same
      rw [show ({ σ with stage := Function.update σ.stage d stage } : Buffered hash).stage d = stage from Function.update_self _ _ _] at before
      rcases now with ⟨_, _, rfl⟩ | ⟨_, _, rfl⟩
      · cases before
      · exact (other e).2 rfl
    · exact ended d e (by simpa [same] using before)
  · change (Function.update σ.stage c stage node1).loads = false
    rcases now with ⟨_, _, rfl⟩ | ⟨_, _, rfl⟩ <;> grind [Stage.loads, Function.update_apply]
  · intro d calls
    have differ : d ≠ c := by
      rintro rfl
      exact calls idle
    simpa [differ] using busy d calls

/-- A client goes on in its program. -/
theorem Meets.advance (meets : Meets σ) (idle : σ.client c = .idle) (next : σ.advance c = some σ') : Meets σ' := by
  unfold Buffered.advance at next
  cases was : σ.stage c <;> simp only [was, reduceCtorEq, Option.some.injEq, Option.ite_none_right_eq_some] at next
  case preload =>
    rw [← next]
    exact meets.stage (by rw [was]; rfl) (by rw [was]; rfl) (by rw [was]; rfl) (fun _ => by rw [was]; rfl) idle
  case sync1 =>
    rw [← next]
    exact meets.sync idle (Or.inl ⟨was, rfl⟩)
  case wait1 =>
    rw [← next.2]
    exact meets.pass idle (Or.inl ⟨was, next.1, rfl⟩)
  case bench =>
    rw [← next]
    refine meets.stage (by rw [was]; rfl) (by rw [was]; rfl) (by rw [was]; rfl) (fun loads => ?_) idle
    cases loads
  case sync2 =>
    rw [← next]
    exact meets.sync idle (Or.inr ⟨was, rfl⟩)
  case wait2 =>
    rw [← next.2]
    exact meets.pass idle (Or.inr ⟨was, next.1, rfl⟩)

/-- A step that leaves the programs where they are. -/
theorem Meets.congr (meets : Meets σ) (stage : σ'.stage = σ.stage) (meeting : σ'.meeting = σ.meeting)
    (busy : ∀ c, σ'.client c ≠ .idle → (σ.stage c).busy = true) : Meets σ' := by
  refine ⟨?_, ?_, ?_, ?_, ?_⟩ <;> rw [stage]
  · rw [meeting]
    exact meets.count
  · exact meets.begun
  · exact meets.ended
  · exact meets.loads
  · exact busy

/-- A message of `disconnect_mc_server` takes no client to `rpc_sync`. -/
theorem Stage.next_met {stage : Stage} (cause : stage.disconnect c = some (dst, m)) : stage.next.met = stage.met ∧
    stage.next.begun = stage.begun ∧ stage.next.ended = stage.ended ∧ (stage.next.loads = true → stage.loads = true) := by
  cases stage <;> simp [Stage.disconnect] at cause <;> simp [Stage.next, Stage.met, Stage.begun, Stage.ended, Stage.loads]

/-- **Each step** keeps the clients in step. -/
theorem Meets.step {a : BufAct} (meets : Meets σ) (move : Move σ a σ') : Meets σ' := by
  cases move with
  | @call c op rests allows =>
    refine meets.congr rfl rfl fun d calls => ?_
    by_cases same : d = c
    · subst same
      cases was : σ.stage d <;> simp [was, Stage.allows] at allows <;> rfl
    · exact meets.busy d (by simpa [same] using calls)
  | advance rests next => exact meets.advance rests.2.1 next
  | @control c dst m sending idle cause drafted =>
    obtain ⟨met, begun, ended, loads⟩ := Stage.next_met cause
    have moved := meets.stage met begun ended loads idle
    exact moved.congr rfl rfl moved.busy
  | @answer c src m r reading here reply =>
    refine meets.congr rfl rfl fun d calls => ?_
    have differ : d ≠ c := by
      rintro rfl
      simp at calls
    exact meets.busy d (by simpa [differ] using calls)
  | _ => exact meets.congr rfl rfl meets.busy

/-! ## What the clients send -/

/-- The messages of a client to the other's server, and those of `disconnect_mc_server` to its own: MC_BEGIN is of client 2, and behind an
MC_EXIT there is nothing. Once a client waits it has sent a request, and before the clients have met client 3 has sent none. -/
structure Sends (σ : Buffered hash) : Prop where
  across : ∀ c, ∀ x ∈ (σ.box (.client c) (.server (peer c))).unfinished, c = node0 ∧ x = some (.mcBegin (.client c))
  own : ∀ c, ∀ x ∈ (σ.box (.client c) (.server c)).unfinished, plain x = false →
    c = node0 ∧ x = some (.mcBegin (.client c)) ∨ x = some (.mcExit (.client c))
  exits : ∀ c, some (.mcExit (.client c)) ∈ (σ.box (.client c) (.server c)).unfinished → σ.stage c = .done ∧
    ∃ front, (σ.box (.client c) (.server c)).unfinished = front ++ [some (.mcExit (.client c))] ∧ some (.mcExit (.client c)) ∉ front
  asked : ∀ c, σ.client c ≠ .idle → σ.sending (.client c) = none → (σ.box (.client c) (.server c)).sent ≠ []
  silent : (σ.stage node1).begun = false → (σ.box (.client node1) (.server node1)).sent = []

/-- Nothing is sent at the start. -/
theorem Sends.init : Sends (Buffered.init : Buffered hash) := by
  constructor
  · simp [Buffered.init, Mailbox.empty, Mailbox.unfinished, Mailbox.inUse]
  · simp [Buffered.init, Mailbox.empty, Mailbox.unfinished, Mailbox.inUse]
  · simp [Buffered.init, Mailbox.empty, Mailbox.unfinished, Mailbox.inUse]
  · exact fun c busy => absurd rfl busy
  · exact fun _ => rfl

/-- What a client has written and is about to send. -/
theorem Sim.drafts (sim : Sim σ τ) (meets : Meets σ) (sending : σ.sending (.client c) = some dst)
    (drafted : (σ.box (.client c) dst).draft = some m) :
    (σ.client c = .idle ∧ (σ.stage c).disconnect c = some (dst, m)) ∨
      (dst = .server c ∧ m.isControl = false ∧ σ.client c ≠ .idle ∧ (σ.stage c).busy = true) := by
  obtain ⟨m', drafted', why⟩ := sim.request c dst sending
  obtain rfl : m = m' := Option.some.inj (drafted.symm.trans drafted')
  rcases why with control | ⟨op, pc, rfl, rfl⟩
  · exact Or.inl control
  · have calls : σ.client c ≠ .idle := by
      rw [pc]
      cases op <;> simp [Op.pc]
    refine Or.inr ⟨rfl, ?_, calls, meets.busy c calls⟩
    cases op <;> rfl

/-- The messages of `disconnect_mc_server`. -/
theorem Stage.disconnect_eq {stage : Stage} (cause : stage.disconnect c = some (dst, m)) :
    (stage = .begin0 ∧ dst = .server node0 ∧ m = .mcBegin (.client c)) ∨ (stage = .begin1 ∧ dst = .server node1 ∧ m = .mcBegin (.client c)) ∨
      (stage = .exit ∧ dst = .server c ∧ m = .mcExit (.client c)) := by
  cases stage <;> simp [Stage.disconnect] at cause <;> obtain ⟨rfl, rfl⟩ := cause <;> simp

/-- A client that has no keys left to load, and has not met the other, is about to. -/
theorem Stage.between {stage : Stage} (loads : stage.loads = false) (begun : stage.begun = false) : stage = .sync1 ∨ stage = .wait1 := by
  cases stage <;> simp [Stage.loads, Stage.begun] at loads begun <;> simp

/-- Client 3 has no keys to load. -/
theorem Meets.first (meets : Meets σ) (loads : (σ.stage c).loads = true) : c = node0 := by
  obtain rfl | rfl := side_total c
  · rfl
  · rw [meets.loads] at loads
    cases loads

/-- The stage of a client after a step, -/
theorem Move.stage_cases {a : BufAct} (move : Move σ a σ') (d : Side) :
    σ'.stage d = σ.stage d ∨ σ.client d = .idle ∧ ((a = .advance d ∧ σ.sending (.client d) = none) ∨
      (a = .send (.client d) ∧ ∃ dst m, σ.sending (.client d) = some dst ∧ (σ.box (.client d) dst).draft = some m ∧
        (σ.stage d).disconnect d = some (dst, m) ∧ σ'.stage d = (σ.stage d).next)) := by
  cases move with
  | @advance c σ' rests next =>
    by_cases same : d = c
    · subst same
      exact Or.inr ⟨rests.2.1, Or.inl ⟨rfl, rests.2.2⟩⟩
    · obtain ⟨stage, k, rfl, _⟩ := advance_cases next
      exact Or.inl (Function.update_of_ne same _ _)
  | @control c dst m sending idle cause drafted =>
    by_cases same : d = c
    · subst same
      exact Or.inr ⟨idle, Or.inr ⟨rfl, dst, m, sending, drafted, cause, Function.update_self _ _ _⟩⟩
    · exact Or.inl (Function.update_of_ne same _ _)
  | _ => exact Or.inl rfl

/-- A client that is through with its program stays so. -/
theorem Move.done_stays {a : BufAct} (move : Move σ a σ') (done : σ.stage c = .done) : σ'.stage c = .done := by
  rcases move.stage_cases c with same | ⟨_, ⟨rfl, _⟩ | ⟨_, dst, m, _, _, cause, _⟩⟩
  · rw [same, done]
  · cases move with
    | advance rests next => simp [Buffered.advance, done] at next
  · rw [done] at cause
    cases cause

/-- A client that sends what is not a request goes on. -/
theorem Move.sends_stage (move : Move σ (.send (.client c)) σ') (idle : σ.client c = .idle) : σ'.stage c = (σ.stage c).next := by
  cases move with
  | @request c op sending pc drafted =>
    rw [pc] at idle
    cases op <;> cases idle
  | control => exact Function.update_self _ _ _

/-- Clients that have met stay so. -/
theorem Move.begun {a : BufAct} (move : Move σ a σ') (begun : (σ.stage c).begun = true) : (σ'.stage c).begun = true := by
  rcases move.stage_cases c with same | ⟨_, ⟨rfl, _⟩ | ⟨_, dst, m, _, _, cause, next⟩⟩
  · rwa [same]
  · cases move with
    | advance rests next =>
      unfold Buffered.advance at next
      cases was : σ.stage c <;> simp only [was, reduceCtorEq, Option.some.injEq, Option.ite_none_right_eq_some] at next begun <;>
        first | (rw [← next]; simp [Stage.begun]; done) | (rw [← next.2]; simp [Stage.begun]) | cases begun
  · rw [next, (Stage.next_met cause).2.1, begun]

/-- Only client 2 sends to the other's server, and only MC_BEGIN; -/
theorem Sends.across_step {a : BufAct} (sim : Sim σ τ) (meets : Meets σ) (sends : Sends σ) (move : Move σ a σ') :
    ∀ c, ∀ x ∈ (σ'.box (.client c) (.server (peer c))).unfinished, c = node0 ∧ x = some (.mcBegin (.client c)) := by
  intro c x inside
  cases move.carries sim (.client c) (.server (peer c)) with
  | @sends m i why drafted unfinished queue handled sent =>
    rw [unfinished, List.mem_append, List.mem_singleton] at inside
    rcases inside with old | rfl
    · exact sends.across c x old
    · rcases sim.drafts meets why.2 drafted with ⟨_, cause⟩ | ⟨same, _⟩
      · rcases Stage.disconnect_eq cause with ⟨was, _, rfl⟩ | ⟨was, _, rfl⟩ | ⟨_, toward, _⟩
        · exact ⟨meets.first (by rw [was]; rfl), rfl⟩
        · exact ⟨meets.first (by rw [was]; rfl), rfl⟩
        · exact absurd (Node.server.inj toward) (peer_ne c)
      · exact absurd (Node.server.inj same) (peer_ne c)
  | ends why here unfinished queue handled sent => exact sends.across c x (by rw [unfinished]; exact List.mem_cons_of_mem _ inside)
  | stays unfinished | takes _ unfinished | handles _ _ unfinished => exact sends.across c x (by rwa [← unfinished])

/-- beside its requests a client sends its own server MC_BEGIN and MC_EXIT, -/
theorem Sends.own_step {a : BufAct} (sim : Sim σ τ) (meets : Meets σ) (sends : Sends σ) (move : Move σ a σ') :
    ∀ c, ∀ x ∈ (σ'.box (.client c) (.server c)).unfinished, plain x = false →
      c = node0 ∧ x = some (.mcBegin (.client c)) ∨ x = some (.mcExit (.client c)) := by
  intro c x inside control
  cases move.carries sim (.client c) (.server c) with
  | @sends m i why drafted unfinished queue handled sent =>
    rw [unfinished, List.mem_append, List.mem_singleton] at inside
    rcases inside with old | rfl
    · exact sends.own c x old control
    · rcases sim.drafts meets why.2 drafted with ⟨_, cause⟩ | ⟨_, other, _⟩
      · rcases Stage.disconnect_eq cause with ⟨was, _, rfl⟩ | ⟨was, _, rfl⟩ | ⟨_, _, rfl⟩
        · exact Or.inl ⟨meets.first (by rw [was]; rfl), rfl⟩
        · exact Or.inl ⟨meets.first (by rw [was]; rfl), rfl⟩
        · exact Or.inr rfl
      · simp [plain, other] at control
  | ends why here unfinished queue handled sent => exact sends.own c x (by rw [unfinished]; exact List.mem_cons_of_mem _ inside) control
  | stays unfinished | takes _ unfinished | handles _ _ unfinished => exact sends.own c x (by rwa [← unfinished]) control

/-- MC_EXIT as the last one, -/
theorem Sends.exits_step {a : BufAct} (sim : Sim σ τ) (meets : Meets σ) (sends : Sends σ) (move : Move σ a σ') :
    ∀ c, some (.mcExit (.client c)) ∈ (σ'.box (.client c) (.server c)).unfinished → σ'.stage c = .done ∧
      ∃ front, (σ'.box (.client c) (.server c)).unfinished = front ++ [some (.mcExit (.client c))] ∧ some (.mcExit (.client c)) ∉ front := by
  intro c inside
  cases move.carries sim (.client c) (.server c) with
  | @sends m i why drafted unfinished queue handled sent =>
    obtain ⟨rfl, sending⟩ := why
    have drafts := sim.drafts meets sending drafted
    have fresh : some (.mcExit (.client c)) ∉ (σ.box (.client c) (.server c)).unfinished := by
      intro old
      have done := (sends.exits c old).1
      rcases drafts with ⟨_, cause⟩ | ⟨_, _, _, busy⟩
      · rw [done] at cause
        cases cause
      · rw [done] at busy
        cases busy
    rw [unfinished, List.mem_append, List.mem_singleton] at inside
    obtain rfl := Option.some.inj (inside.resolve_left fresh)
    rcases drafts with ⟨idle, cause⟩ | ⟨_, other, _⟩
    · rcases Stage.disconnect_eq cause with ⟨_, _, other⟩ | ⟨_, _, other⟩ | ⟨was, _, _⟩
      · cases other
      · cases other
      · exact ⟨by rw [move.sends_stage idle, was]; rfl, _, unfinished, fresh⟩
    · cases other
  | ends why here unfinished queue handled sent =>
    obtain ⟨done, front, split, fresh⟩ := sends.exits c (by rw [unfinished]; exact List.mem_cons_of_mem _ inside)
    refine ⟨move.done_stays done, ?_⟩
    rw [unfinished] at split
    cases front with
    | nil =>
      rw [List.nil_append, List.cons.injEq] at split
      rw [split.2] at inside
      cases inside
    | cons y front =>
      rw [List.cons_append, List.cons.injEq] at split
      exact ⟨front, split.2, fun member => fresh (List.mem_cons_of_mem _ member)⟩
  | stays unfinished | takes _ unfinished | handles _ _ unfinished =>
    obtain ⟨done, rest⟩ := sends.exits c (by rwa [← unfinished])
    exact ⟨move.done_stays done, by rwa [unfinished]⟩

/-- waits only for the answer to a request, -/
theorem Sends.asked_step {a : BufAct} (sim : Sim σ τ) (sends : Sends σ) (move : Move σ a σ') :
    ∀ c, σ'.client c ≠ .idle → σ'.sending (.client c) = none → (σ'.box (.client c) (.server c)).sent ≠ [] := by
  intro c calls sending
  have before : σ.client c ≠ .idle → σ.sending (.client c) = none → (σ'.box (.client c) (.server c)).sent ≠ [] := by
    intro busy unsent
    have some := sends.asked c busy unsent
    cases move.carries sim (.client c) (.server c) with
    | sends why drafted unfinished queue handled sent => rw [sent]; simp
    | stays _ _ _ sent | takes _ _ _ _ sent | handles _ _ _ _ _ sent | ends _ _ _ _ _ sent => rwa [sent]
  cases move with
  | @call d op rests allows =>
    have differ : c ≠ d := by
      rintro rfl
      simp [Buffered.write] at sending
    exact before (by simpa [differ] using calls) (by simpa [Buffered.write, differ] using sending)
  | @disconnect d dst m rests cause =>
    have differ : c ≠ d := by
      rintro rfl
      simp [Buffered.write] at sending
    exact before calls (by simpa [Buffered.write, differ] using sending)
  | advance rests next =>
    obtain ⟨stage, k, rfl, _⟩ := advance_cases next
    exact before calls sending
  | @request d op unsent pc drafted =>
    by_cases same : c = d
    · subst same
      obtain ⟨i, written, here⟩ := Option.bind_eq_some_iff.mp drafted
      simp [Mailbox.send, written]
    · exact before calls (by simpa [same] using sending)
  | @control d dst m unsent idle cause drafted =>
    have differ : c ≠ d := by
      rintro rfl
      exact calls idle
    exact before calls (by simpa [differ] using sending)
  | reply => exact before calls (by simpa using sending)
  | recv => exact before calls sending
  | done => exact before calls sending
  | handle => exact before calls (by simpa [Buffered.write] using sending)
  | @answer d src m r reading here reply =>
    have differ : c ≠ d := by
      rintro rfl
      simp at calls
    exact before (by simpa [differ] using calls) sending
  | fail => exact before calls sending

/-- and client 3 sends nothing before the clients have met. -/
theorem Sends.silent_step {a : BufAct} (sim : Sim σ τ) (meets : Meets σ) (sends : Sends σ) (move : Move σ a σ') :
    (σ'.stage node1).begun = false → (σ'.box (.client node1) (.server node1)).sent = [] := by
  intro early
  have was : (σ.stage node1).begun = false := by
    by_contra begun
    rw [Bool.not_eq_false] at begun
    rw [move.begun begun] at early
    cases early
  have none := sends.silent was
  cases move.carries sim (.client node1) (.server node1) with
  | @sends m i why drafted unfinished queue handled sent =>
    have loads := meets.loads
    have waits := Stage.between loads was
    rcases sim.drafts meets why.2 drafted with ⟨_, cause⟩ | ⟨_, _, _, busy⟩
    · rcases waits with now | now <;> rw [now] at cause <;> cases cause
    · rcases waits with now | now <;> rw [now] at busy <;> cases busy
  | stays _ _ _ sent | takes _ _ _ _ sent | handles _ _ _ _ _ sent | ends _ _ _ _ _ sent => rw [sent, none]

/-- **Each step** leaves the clients' messages so. -/
theorem Sends.step {a : BufAct} (sim : Sim σ τ) (meets : Meets σ) (sends : Sends σ) (move : Move σ a σ') : Sends σ' :=
  ⟨sends.across_step sim meets move, sends.own_step sim meets move, sends.exits_step sim meets move, sends.asked_step sim move,
    sends.silent_step sim meets move⟩

end

end BiProject.TwoPc
