import BiProject.Rpc.Answers

/-!
# Every request is answered

Along a run in which a server and a client that waits for its reply both keep taking steps, the reply comes:
the server gets round to the client's ring, finds the request, and sends the reply, which the client finds.
-/

namespace BiProject.Rpc
set_option autoImplicit false
open BiProject.Lib.Ring BiProject.Lib.Fairness

/-! ## How long a call takes -/

/-- A bound on the steps a sender still needs. -/
def Sending.left (s : Sending) : Nat :=
  match s.pc with
  | .copy k => s.msg.length - k + 4
  | .size => 3
  | .use => 2
  | .pos => 1

/-- A bound on the steps a receiver still needs, from its next look at the slot on. -/
def Receiving.left (r : Receiving) : Nat :=
  match r.pc with
  | .use => 2 * maxMsgSize
  | .size => maxMsgSize + 8
  | .copy => r.retSz - r.buf.length + 4
  | .clearSize => 3
  | .clearUse => 2
  | .pos => 1

theorem rpcSendExt_left {slot slot' : MsgNode} {pos pos' : Nat} {s s' : Sending} (run : rpcSendExt slot pos s = (slot', pos', some s')) :
    s'.left < s.left ∧ s'.msg = s.msg := by
  unfold rpcSendExt at run
  cases here : s.pc with
  | copy k =>
    simp only [here] at run
    split_ifs at run with more
    · obtain ⟨_, _, rfl⟩ := by simpa using run
      refine ⟨?_, rfl⟩
      simp only [Sending.left, here]
      omega
    · obtain ⟨_, _, rfl⟩ := by simpa using run
      refine ⟨?_, rfl⟩
      simp only [Sending.left, here]
      omega
  | size =>
    obtain ⟨_, _, rfl⟩ := by simpa [here] using run
    simp [Sending.left, here]
  | use =>
    obtain ⟨_, _, rfl⟩ := by simpa [here] using run
    simp [Sending.left, here]
  | pos => simp [here] at run

/-- A receiver that finds a message, of a size that fits, comes closer to its end. -/
theorem rpcRecvExt_left {slot slot' : MsgNode} {pos pos' : Nat} {r r' : Receiving} (run : rpcRecvExt slot pos r = (slot', pos', .inl r'))
    (found : r.pc = .use → slot.use ≠ 0 ∨ r.spin = false) (fits : r.pc = .size → slot.size < maxMsgSize)
    (size : r.pc = .pos → r.retSz ≠ 0) : r'.left < r.left ∧ r'.spin = r.spin := by
  unfold rpcRecvExt at run
  cases here : r.pc with
  | use =>
    simp only [here] at run
    split_ifs at run with unused spins
    · rcases found here with used | once
      · exact absurd unused used
      · rw [once] at spins
        cases spins
    · cases (Prod.mk.inj (Prod.mk.inj run).2).2
    · obtain ⟨_, _, rfl⟩ := by simpa using run
      simp [Receiving.left, here, maxMsgSize]
  | size =>
    obtain ⟨_, _, rfl⟩ := by simpa [here] using run
    have small := fits here
    refine ⟨?_, rfl⟩
    simp only [Receiving.left, here, List.length_nil]
    omega
  | copy =>
    simp only [here] at run
    split_ifs at run with more
    · obtain ⟨_, _, rfl⟩ := by simpa using run
      refine ⟨?_, rfl⟩
      simp only [Receiving.left, here, List.length_append, List.length_singleton]
      omega
    · obtain ⟨_, _, rfl⟩ := by simpa using run
      refine ⟨?_, rfl⟩
      simp only [Receiving.left, here]
      omega
  | clearSize =>
    obtain ⟨_, _, rfl⟩ := by simpa [here] using run
    simp [Receiving.left, here]
  | clearUse =>
    obtain ⟨_, _, rfl⟩ := by simpa [here] using run
    simp [Receiving.left, here]
  | pos =>
    simp only [here] at run
    split_ifs at run with again
    · exact absurd again.1 (size here)
    · cases (Prod.mk.inj (Prod.mk.inj run).2).2

section
variable {nn nc srv n c R : Nat} {σ σ' : Sys} {l : Label} {a : Agent} {q : Ring} {ptr : PosPtr}

/-! ## What the cores know -/

theorem SysOk.sending_chan (ok : SysOk σ) {s : Sending} (active : σ.threads a = .sending q ptr s) :
    q.sender = a ∧ (σ.chan q).sending = some s := by
  have placed := ok.placed a
  rw [active] at placed
  refine ⟨placed.1, ?_⟩
  simp only [Sys.chan, placed.1, active, Thread.sendingOn, if_true]

theorem SysOk.receiving_chan (ok : SysOk σ) {r : Receiving} (active : σ.threads a = .receiving q ptr r) :
    q.receiver = a ∧ ptr = q.recvPtr ∧ (σ.chan q).receiving = some r := by
  have placed := ok.placed a
  rw [active] at placed
  refine ⟨placed.1, placed.2.1, ?_⟩
  simp only [Sys.chan, placed.1, active, Thread.receivingOn, if_true]

theorem SysOk.sending_left (ok : SysOk σ) {s : Sending} (active : σ.threads a = .sending q ptr s) : s.left ≤ maxMsgSize + 4 := by
  obtain ⟨_, sends⟩ := ok.sending_chan active
  have sender := (ok.chans q).sender
  rw [Chan.SenderOk, sends] at sender
  obtain ⟨front, sent, _⟩ := sender
  have small := ((ok.chans q).sizes s.msg (by rw [sent]; simp)).2
  unfold Sending.left maxMsgSize at *
  split <;> omega

/-- A receiver that has found its message knows that it fits. -/
theorem SysOk.receiving_fits (ok : SysOk σ) {r : Receiving} (active : σ.threads a = .receiving q ptr r) :
    (r.pc = .size → (σ.rings q r.cur).size < maxMsgSize) ∧ (r.pc = .pos → r.retSz ≠ 0 ∧ r.buf ≠ []) ∧ r.left ≤ 2 * maxMsgSize := by
  obtain ⟨_, _, receives⟩ := ok.receiving_chan active
  have chan := ok.chans q
  obtain ⟨_, progress⟩ := chan.receiver r receives
  have fits : r.pc ≠ .use → ∃ m, m.length < maxMsgSize ∧ r.Progress (σ.rings q r.cur) m := by
    intro found
    obtain ⟨there, knows⟩ := progress found
    obtain ⟨m, entry⟩ := (σ.chan q).next_message there
    exact ⟨m, (chan.sizes m (List.mem_of_getElem? entry)).2, knows m entry⟩
  refine ⟨fun here => ?_, fun here => ?_, ?_⟩
  · obtain ⟨m, small, knows⟩ := fits (by simp [here])
    simp only [Receiving.Progress, here] at knows
    rw [knows.size]
    exact small
  · obtain ⟨nonempty, size, _⟩ := chan.recv_end receives here
    exact ⟨size, nonempty⟩
  · unfold Receiving.left
    cases here : r.pc with
    | use => exact le_rfl
    | copy =>
      obtain ⟨m, small, knows⟩ := fits (by simp [here])
      simp only [Receiving.Progress, here] at knows
      have size := knows.2.1
      simp only [maxMsgSize] at small ⊢
      omega
    | size => simp [maxMsgSize]
    | clearSize => simp [maxMsgSize]
    | clearUse => simp [maxMsgSize]
    | pos => simp [maxMsgSize]

/-- A receiver whose message is there finds it at its next look. -/
theorem SysOk.finds (ok : SysOk σ) {r : Receiving} (active : σ.threads a = .receiving q ptr r)
    (there : (σ.got q).length < (σ.chan q).published) (look : r.pc = .use) : (σ.rings q r.cur).use ≠ 0 := by
  obtain ⟨_, _, receives⟩ := ok.receiving_chan active
  have chan := ok.chans q
  obtain ⟨place, _⟩ := chan.receiver r receives
  obtain ⟨m, entry⟩ := (σ.chan q).next_message there
  have full := chan.full _ m le_rfl there ?_ entry
  · rw [← place] at full
    exact full.use
  · rintro ⟨_, r', receives', clearing⟩
    obtain rfl := Option.some.inj (receives.symm.trans receives')
    simp [look] at clearing

/-- What a receiver that has found its message returns is not empty. -/
theorem SysOk.returns_message (ok : SysOk σ) {r : Receiving} {slot : MsgNode} {pos : Nat} {msg : Msg}
    (active : σ.threads a = .receiving q ptr r) (run : rpcRecvExt (σ.rings q r.cur) (σ.pos ptr) r = (slot, pos, .inr msg))
    (found : r.pc = .use → (σ.rings q r.cur).use ≠ 0 ∨ r.spin = true) : msg ≠ [] := by
  unfold rpcRecvExt at run
  cases here : r.pc with
  | use =>
    simp only [here] at run
    split_ifs at run with unused spins
    · cases (Prod.mk.inj (Prod.mk.inj run).2).2
    · rcases found here with used | spin
      · exact absurd unused used
      · exact absurd spin spins
    · cases (Prod.mk.inj (Prod.mk.inj run).2).2
  | size => simp [here] at run
  | copy =>
    simp only [here] at run
    split_ifs at run
    · cases (Prod.mk.inj (Prod.mk.inj run).2).2
    · cases (Prod.mk.inj (Prod.mk.inj run).2).2
  | clearSize => simp [here] at run
  | clearUse => simp [here] at run
  | pos =>
    simp only [here] at run
    split_ifs at run with again
    · cases (Prod.mk.inj (Prod.mk.inj run).2).2
    · obtain ⟨_, _, rfl⟩ := by simpa using run
      exact ((ok.receiving_fits active).2.1 here).2

/-- A server is at a ring that it polls, and does not spin. -/
structure Polling (nn nc srv : Nat) (σ : Sys) : Prop where
  turn : InTurn nn nc (σ.svrNode srv, σ.svrCore srv)
  once : ∀ q ptr r, σ.threads (.server srv) = .receiving q ptr r → r.spin = false

theorem rpcRecvExt_spin {slot slot' : MsgNode} {pos pos' : Nat} {r r' : Receiving}
    (run : rpcRecvExt slot pos r = (slot', pos', .inl r')) : r'.spin = r.spin := by
  unfold rpcRecvExt at run
  split at run <;> (try split_ifs at run) <;> simp only [Prod.mk.injEq, Sum.inl.injEq, reduceCtorEq, and_false] at run <;>
    obtain ⟨_, _, rfl⟩ := run <;> rfl

theorem Polling.step (polling : Polling nn nc srv σ) (next : Step nn nc σ l σ') : Polling nn nc srv σ' := by
  by_cases own : l.agent = .server srv
  · cases next with
    | send => cases own
    | recv => cases own
    | sendServer =>
      obtain rfl := Agent.server.inj own
      refine ⟨polling.turn, fun q ptr r active => ?_⟩
      cases (Function.update_self (β := fun _ => Thread) _ _ _).symm.trans active
    | recvServer =>
      obtain rfl := Agent.server.inj own
      refine ⟨polling.turn, fun q ptr r active => ?_⟩
      cases (Function.update_self (β := fun _ => Thread) _ _ _).symm.trans active
      rfl
    | sends =>
      obtain rfl : _ = _ := own
      refine ⟨polling.turn, fun q ptr r active => ?_⟩
      cases (Function.update_self (β := fun _ => Thread) _ _ _).symm.trans active
    | sent =>
      obtain rfl : _ = _ := own
      refine ⟨polling.turn, fun q ptr r active => ?_⟩
      cases (Function.update_self (β := fun _ => Thread) _ _ _).symm.trans active
    | receives was run =>
      obtain rfl : _ = _ := own
      refine ⟨polling.turn, fun q ptr r active => ?_⟩
      cases (Function.update_self (β := fun _ => Thread) _ _ _).symm.trans active
      rw [rpcRecvExt_spin run]
      exact polling.once _ _ _ was
    | returns was run =>
      obtain rfl : _ = _ := own
      refine ⟨?_, fun q ptr r active => ?_⟩
      · have after := (advanceRecvId_next polling.turn).1
        simp only [Sys.returns, Sys.recvServerReturns, Function.update_self]
        exact after
      · cases (Function.update_self (β := fun _ => Thread) _ _ _).symm.trans active
  · have same := next.sameServer own
    refine ⟨by rw [same.node, same.core]; exact polling.turn, fun q ptr r active => polling.once q ptr r ?_⟩
    rw [← same.thread]
    exact active

theorem Run.polling {allowed : Sys → Label → Prop} (nodes : 0 < nn) (cores : 0 < nc) (run : Run nn nc allowed σ) :
    Polling nn nc srv σ := by
  induction run with
  | init => exact ⟨⟨nodes, cores⟩, fun q ptr r active => by cases active⟩
  | step _ _ next ih => exact ih.step next

/-! ## A client that waits -/

/-- The client spins for the reply to its last request, with `R` replies so far. -/
structure Waiting (srv n c R : Nat) (σ : Sys) : Prop where
  spins : ∃ ptr r, σ.threads (.client n c) = .receiving ⟨.reply, srv, n, c⟩ ptr r ∧ r.spin = true
  requests : (σ.requests n c srv).length = R + 1
  returned : (σ.returned n c srv).length = R

/-- The reply has come. -/
structure Served (srv n c R : Nat) (σ : Sys) : Prop where
  requests : (σ.requests n c srv).length = R + 1
  returned : (σ.returned n c srv).length = R + 1

theorem Waiting.step (waiting : Waiting srv n c R σ) (ok : SysOk σ) (next : Step nn nc σ l σ') :
    Waiting srv n c R σ' ∨ Served srv n c R σ' := by
  obtain ⟨⟨ptr, r, active, spin⟩, requests, returned⟩ := waiting
  by_cases own : l.agent = .client n c
  · cases next with
    | send idle =>
      obtain ⟨rfl, rfl⟩ := Agent.client.inj own
      rw [active] at idle
      cases idle
    | sendServer => cases own
    | recv idle =>
      obtain ⟨rfl, rfl⟩ := Agent.client.inj own
      rw [active] at idle
      cases idle
    | recvServer => cases own
    | sends was =>
      obtain rfl : _ = _ := own
      cases was.symm.trans active
    | sent was =>
      obtain rfl : _ = _ := own
      cases was.symm.trans active
    | receives was run =>
      obtain rfl : _ = _ := own
      cases was.symm.trans active
      exact Or.inl ⟨⟨_, _, Function.update_self _ _ _, (rpcRecvExt_spin run).trans spin⟩, requests, returned⟩
    | @returns _ _ _ _ _ _ msg was run =>
      obtain rfl : _ = _ := own
      cases was.symm.trans active
      have message := ok.returns_message was run fun _ => Or.inr spin
      refine Or.inr ⟨requests, ?_⟩
      rw [show Sys.returned _ n c srv = _ from update_three_self, if_neg message, List.length_append, List.length_singleton]
      exact congrArg (· + 1) returned
  · have same := next.sameClient own
    refine Or.inl ⟨?_, by rw [same.requests]; exact requests, by rw [same.returned]; exact returned⟩
    rw [same.thread]
    exact ⟨ptr, r, active, spin⟩

/-! ## The server gets round to the request -/

/-- What a server still has to do before it begins to poll the next ring. -/
def Sys.phase (σ : Sys) (srv : Nat) : Nat :=
  match σ.threads (.server srv) with
  | .idle => if (σ.log srv).length = (σ.replied srv).length then 3 * maxMsgSize else 6 * maxMsgSize
  | .sending _ _ s => 4 * maxMsgSize + s.left
  | .receiving _ _ r => r.left

/-- How far a server is from the end of its poll of the ring of a core. -/
def Sys.away (nn nc srv n c : Nat) (σ : Sys) : Nat :=
  span (nn * nc) (ringNumber nc (σ.svrNode srv, σ.svrCore srv)) (ringNumber nc (n, c)) * (8 * maxMsgSize) + σ.phase srv

theorem SysOk.phase_le (ok : SysOk σ) : σ.phase srv ≤ 6 * maxMsgSize := by
  unfold Sys.phase
  split
  · split_ifs <;> simp only [maxMsgSize] <;> omega
  · next active =>
    have small := ok.sending_left active
    simp only [maxMsgSize] at small ⊢
    omega
  · next active =>
    have small := (ok.receiving_fits active).2.2
    omega

/-- What a server has when a call of `rpc_recv_server` returns. -/
theorem returns_log {cur : Nat} {slot : MsgNode} {pos : Nat} {msg : Msg} :
    ((σ.setSlot q cur slot ptr pos).returns nn nc q msg (.server srv)).log srv =
      σ.log srv ++ if msg = [] then [] else [(σ.svrNode srv, σ.svrCore srv, msg)] := Function.update_self _ _ _

theorem returns_turn {cur : Nat} {slot : MsgNode} {pos : Nat} {msg : Msg} :
    (((σ.setSlot q cur slot ptr pos).returns nn nc q msg (.server srv)).svrNode srv,
      ((σ.setSlot q cur slot ptr pos).returns nn nc q msg (.server srv)).svrCore srv) =
      advanceRecvId nn nc (σ.svrNode srv, σ.svrCore srv) := by
  simp only [Sys.returns, Sys.recvServerReturns, Function.update_self]
  rfl

/-- A step of the server while it has not received the request: it comes closer, or receives it. -/
theorem SysOk.comes_closer (ok : SysOk σ) (sync : SyncOk srv n c σ) (polling : Polling nn nc srv σ) (ring : InTurn nn nc (n, c))
    (there : (labelled n c (σ.log srv)).length < (σ.chan ⟨.request, srv, n, c⟩).published)
    (allow : Sync srv n c σ l) (next : Step nn nc σ l σ') (own : l.agent = .server srv) :
    (labelled n c (σ'.log srv)).length = (labelled n c (σ.log srv)).length + 1 ∨
      (σ'.log srv = σ.log srv ∨ (labelled n c (σ'.log srv)).length = (labelled n c (σ.log srv)).length) ∧
        σ'.away nn nc srv n c < σ.away nn nc srv n c := by
  have ok' := ok.step next
  cases next with
  | send => cases own
  | recv => cases own
  | @sendServer srv' nid cid msg idle nonempty size room =>
    obtain rfl := Agent.server.inj own
    obtain ⟨front, req, log, due⟩ := allow rfl
    refine Or.inr ⟨Or.inl rfl, Nat.add_lt_add_left ?_ _⟩
    have owes : (σ.log srv').length ≠ (σ.replied srv').length := by
      rw [log]
      simp [due]
    have small := ok'.sending_left (Function.update_self _ _ _)
    simp only [Sys.phase, idle, if_neg owes, Sys.rpcSendServer, Sys.setThread, Function.update_self]
    simp only [maxMsgSize] at small ⊢
    omega
  | @recvServer _ idle =>
    obtain rfl := Agent.server.inj own
    refine Or.inr ⟨Or.inl rfl, Nat.add_lt_add_left ?_ _⟩
    simp only [Sys.phase, idle, if_pos (allow rfl), Sys.rpcRecvServer, Sys.setThread, Function.update_self, rpcRecvBegin, Receiving.left,
      maxMsgSize]
    omega
  | @sends a q ptr s s' slot pos active run =>
    obtain rfl : a = _ := own
    refine Or.inr ⟨Or.inl rfl, Nat.add_lt_add_left ?_ _⟩
    have less := (rpcSendExt_left run).1
    simp only [Sys.phase, active, Sys.setThread, Sys.setSlot, Function.update_self]
    omega
  | @sent a q ptr s slot pos active run =>
    obtain rfl : a = _ := own
    refine Or.inr ⟨Or.inl rfl, Nat.add_lt_add_left ?_ _⟩
    have even := sync.busy (by rw [active]; simp)
    have done : ((σ.setSlot q s.cur slot ptr pos).setThread (.server srv) .idle).phase srv = 3 * maxMsgSize := by
      unfold Sys.phase
      rw [show ((σ.setSlot q s.cur slot ptr pos).setThread (.server srv) .idle).threads (.server srv) = .idle from
        Function.update_self _ _ _]
      exact if_pos even
    rw [done]
    simp only [Sys.phase, active, maxMsgSize]
    omega
  | @receives a q ptr r r' slot pos active run =>
    obtain rfl : a = _ := own
    refine Or.inr ⟨Or.inl rfl, Nat.add_lt_add_left ?_ _⟩
    obtain ⟨fits, ends, _⟩ := ok.receiving_fits active
    have less := (rpcRecvExt_left run (fun _ => Or.inr (polling.once _ _ _ active)) fits fun here => (ends here).1).1
    simpa only [Sys.phase, active, Sys.setThread, Sys.setSlot, Function.update_self] using less
  | @returns a q ptr r slot pos msg active run =>
    obtain rfl : a = _ := own
    obtain ⟨end', _, _⟩ := ok.receiving_chan active
    have placed := ok.placed (.server srv)
    rw [active] at placed
    obtain ⟨node, core⟩ := placed.2.2 srv rfl
    have ringIs := Ring.of_receiver_server end'
    by_cases mine : σ.svrNode srv = n ∧ σ.svrCore srv = c
    · -- the ring of the client: the request is there
      rw [node, core, mine.1, mine.2] at ringIs
      have message := ok.returns_message active run fun look => Or.inl (ok.finds active (by rw [ringIs]; exact there) look)
      left
      rw [returns_log, if_neg message, mine.1, mine.2, labelled_append, labelled_self, List.length_append, List.length_singleton]
    · right
      refine ⟨Or.inr ?_, ?_⟩
      · rw [returns_log, labelled_append]
        split_ifs
        · rw [labelled_nil, List.append_nil]
        · rw [labelled_other msg mine, List.append_nil]
      · have turn := polling.turn
        have differ : ringNumber nc (σ.svrNode srv, σ.svrCore srv) ≠ ringNumber nc (n, c) := by
          intro same
          obtain ⟨sameN, sameC⟩ := Prod.mk.inj (ringNumber_injective turn ring same)
          exact mine ⟨sameN, sameC⟩
        have closer := span_next turn.number_lt ring.number_lt differ
        have small := @SysOk.phase_le srv _ ok'
        rw [← (advanceRecvId_next turn).2] at closer
        unfold Sys.away
        rw [closer, returns_turn, Nat.succ_mul]
        simp only [maxMsgSize] at small ⊢
        omega

/-! ## Fair runs -/

/-- An infinite run of a server that answers and a client that waits. -/
structure Execution (nn nc srv n c : Nat) where
  state : Nat → Sys
  label : Nat → Label
  start : Run nn nc (Sync srv n c) (state 0)
  allow : ∀ k, Sync srv n c (state k) (label k)
  next : ∀ k, Step nn nc (state k) (label k) (state (k + 1))

/-- A core takes steps again and again. -/
def Execution.Fair (e : Execution nn nc srv n c) (a : Agent) : Prop := ∀ k, ∃ j ≥ k, (e.label j).agent = a

theorem Execution.run (e : Execution nn nc srv n c) (k : Nat) : Run nn nc (Sync srv n c) (e.state k) := by
  induction k with
  | zero => exact e.start
  | succ k ih => exact .step ih (e.allow k) (e.next k)

/-- While the client spins, its request is in the ring or has been received. -/
theorem Waiting.published (waiting : Waiting srv n c R σ) : (σ.chan ⟨.request, srv, n, c⟩).published = R + 1 := by
  obtain ⟨ptr, r, active, _⟩ := waiting.spins
  have quiet : (σ.chan ⟨.request, srv, n, c⟩).sending = none := by
    simp only [Sys.chan, Ring.sender, active, Thread.sendingOn]
  rw [Chan.published, quiet]
  exact waiting.requests

/-- The server has received the request or not, and answered it or not. -/
theorem Waiting.counts (waiting : Waiting srv n c R σ) (run : Run nn nc (Sync srv n c) σ) :
    R ≤ (labelled n c (σ.replied srv)).length ∧
      (labelled n c (σ.replied srv)).length ≤ (labelled n c (σ.log srv)).length ∧ (labelled n c (σ.log srv)).length ≤ R + 1 := by
  obtain ⟨asked, replies⟩ := run.prefixes srv n c
  obtain ⟨first, second⟩ := answers_fst n c run.sync.labels
  have before := asked.length_le
  have after := replies.length_le
  have pairs := first.length_le
  have count := congrArg List.length second
  rw [List.length_map] at pairs count
  rw [waiting.requests] at before
  rw [waiting.returned] at after
  exact ⟨after, by omega, before⟩

/-- **The server receives the request**, wherever it polls. -/
theorem Execution.received (e : Execution nn nc srv n c) (ring : InTurn nn nc (n, c)) (fair : e.Fair (.server srv)) {k : Nat}
    (waiting : Waiting srv n c R (e.state k)) :
    ∃ j ≥ k, Served srv n c R (e.state j) ∨ Waiting srv n c R (e.state j) ∧ (labelled n c ((e.state j).log srv)).length = R + 1 := by
  have polling : ∀ j, Polling nn nc srv (e.state j) := fun j =>
    (e.run j).polling (Nat.zero_lt_of_lt ring.1) (Nat.zero_lt_of_lt ring.2)
  have counts := waiting.counts (e.run k)
  by_cases already : (labelled n c ((e.state k).log srv)).length = R + 1
  · exact ⟨k, le_rfl, Or.inr ⟨waiting, already⟩⟩
  refine eventually (fun σ => Waiting srv n c R σ ∧ (labelled n c (σ.log srv)).length = R)
    (fun σ => Served srv n c R σ ∨ Waiting srv n c R σ ∧ (labelled n c (σ.log srv)).length = R + 1)
    (Sys.away nn nc srv n c) fair (fun j here => ?_) ⟨waiting, by omega⟩
  obtain ⟨waits, received⟩ := here
  rcases waits.step (e.run j).ok (e.next j) with still | served
  · by_cases own : (e.label j).agent = .server srv
    · have there : (labelled n c ((e.state j).log srv)).length < ((e.state j).chan ⟨.request, srv, n, c⟩).published := by
        rw [waits.published, received]
        exact Nat.lt_succ_self R
      rcases (e.run j).ok.comes_closer (e.run j).sync (polling j) ring there (e.allow j) (e.next j) own with more | ⟨same, closer⟩
      · exact Or.inl (Or.inr ⟨still, by rw [more, received]⟩)
      · refine Or.inr ⟨⟨still, ?_⟩, closer.le, fun _ => closer⟩
        rcases same with log | count
        · rw [log, received]
        · rw [count, received]
    · have same := (e.next j).sameServer own
      refine Or.inr ⟨⟨still, by rw [same.log, received]⟩, le_of_eq ?_, fun turn => absurd turn own⟩
      simp only [Sys.away, Sys.phase, same.node, same.core, same.thread, same.log, same.replied]
  · exact Or.inl (Or.inl served)

theorem labelled_length (l : List (Nat × Nat × Msg)) : (labelled n c l).length = (l.map labelOf).countP fun e => e = (n, c) := by
  rw [labelled, List.length_filterMap_eq_countP, List.countP_map]
  refine List.countP_congr fun e _ => ?_
  by_cases here : e.1 = n ∧ e.2.1 = c
  · simp [here, labelOf]
  · simp only [Function.comp_apply, labelOf, Prod.mk.injEq, here]
    simp

/-- A server that has received a request of the client and not answered it owes it the reply. -/
theorem SyncOk.idle_of_owes (sync : SyncOk srv n c σ)
    (behind : (labelled n c (σ.replied srv)).length < (labelled n c (σ.log srv)).length) :
    σ.threads (.server srv) = .idle ∧ (σ.log srv).length ≠ (σ.replied srv).length ∧
      ∀ nid cid, σ.Owes srv nid cid → nid = n ∧ cid = c := by
  have uneven : (σ.log srv).length ≠ (σ.replied srv).length := by
    intro even
    have whole := sync.labels.eq_of_length (by rw [List.length_map, List.length_map, even])
    rw [labelled_length, labelled_length, whole] at behind
    exact lt_irrefl _ behind
  refine ⟨by_contra fun busy => uneven (sync.busy busy), uneven, ?_⟩
  rintro nid cid ⟨front, req, log, due⟩
  have matched : Matched (front ++ [(nid, cid, req)]) (σ.replied srv) := log ▸ ⟨sync.labels, sync.owes⟩
  have whole := matched.front_labels due
  rw [log, labelled_length, labelled_length, List.map_append, whole, List.countP_append] at behind
  by_contra other
  have none : (List.map labelOf [(nid, cid, req)]).countP (fun e => e = (n, c)) = 0 := by
    simpa [labelOf] using other
  rw [none] at behind
  exact lt_irrefl _ behind

/-- **The server answers**. -/
theorem Execution.answered (e : Execution nn nc srv n c) (fair : e.Fair (.server srv)) {k : Nat} (waiting : Waiting srv n c R (e.state k))
    (received : (labelled n c ((e.state k).log srv)).length = R + 1) :
    ∃ j ≥ k, Served srv n c R (e.state j) ∨ Waiting srv n c R (e.state j) ∧ (labelled n c ((e.state j).replied srv)).length = R + 1 := by
  by_cases already : (labelled n c ((e.state k).replied srv)).length = R + 1
  · exact ⟨k, le_rfl, Or.inr ⟨waiting, already⟩⟩
  have counts := waiting.counts (e.run k)
  refine eventually
    (fun σ => Waiting srv n c R σ ∧ (labelled n c (σ.log srv)).length = R + 1 ∧ (labelled n c (σ.replied srv)).length = R)
    (fun σ => Served srv n c R σ ∨ Waiting srv n c R σ ∧ (labelled n c (σ.replied srv)).length = R + 1)
    (fun _ => 0) fair (fun j here => ?_) ⟨waiting, received, by omega⟩
  obtain ⟨waits, has, owes⟩ := here
  rcases waits.step (e.run j).ok (e.next j) with still | served
  · by_cases own : (e.label j).agent = .server srv
    · -- its only step is to send the reply
      obtain ⟨idle, uneven, due⟩ := (e.run j).sync.idle_of_owes (by omega)
      have allow := e.allow j
      rcases (e.next j).server own with ⟨nid, cid, msg, isSend, _, after⟩ | ⟨isRecv, _, _⟩ | ⟨_, busy⟩
      · rw [isSend] at allow
        obtain ⟨rfl, rfl⟩ := due nid cid (allow rfl)
        refine Or.inl (Or.inr ⟨still, ?_⟩)
        rw [after, show Sys.replied _ srv = _ from Function.update_self _ _ _, labelled_append, labelled_self, List.length_append, owes]
        rfl
      · rw [isRecv] at allow
        exact absurd (allow rfl) uneven
      · exact absurd idle busy
    · have same := (e.next j).sameServer own
      refine Or.inr ⟨⟨still, by rw [same.log, has], by rw [same.replied, owes]⟩, le_rfl, fun turn => absurd turn own⟩
  · exact Or.inl (Or.inl served)

/-- The server is still filling a slot for the client. -/
def Sys.Filling (σ : Sys) (srv n c : Nat) : Prop :=
  ∃ ptr s, σ.threads (.server srv) = .sending ⟨.reply, srv, n, c⟩ ptr s ∧ s.pc ≠ .pos

theorem Sys.published_reply (sent : (labelled n c (σ.replied srv)).length = R + 1) (done : ¬ σ.Filling srv n c) :
    (σ.chan ⟨.reply, srv, n, c⟩).published = R + 1 := by
  unfold Chan.published
  cases sending : (σ.chan ⟨.reply, srv, n, c⟩).sending with
  | none => exact sent
  | some s =>
    have last : s.pc = .pos := by
      by_contra early
      simp only [Sys.chan, Ring.sender, Thread.sendingOn] at sending
      split at sending
      · next q ptr s' active =>
        split_ifs at sending with here
        · obtain rfl := Option.some.inj sending
          exact done ⟨ptr, s', here ▸ active, early⟩
      · cases sending
    simp only [if_pos last]
    exact sent

/-- What a server has sent. -/
def Sys.sendLeft (σ : Sys) (srv : Nat) : Nat :=
  match σ.threads (.server srv) with
  | .sending _ _ s => s.left
  | _ => 0

/-- A step of a server that sends. -/
theorem Step.send_left (next : Step nn nc σ (.micro (.server srv)) σ') {s : Sending} (active : σ.threads (.server srv) = .sending q ptr s) :
    σ'.threads (.server srv) = .idle ∨ ∃ s', σ'.threads (.server srv) = .sending q ptr s' ∧ s'.left < s.left := by
  cases next with
  | sends was run =>
    cases was.symm.trans active
    exact Or.inr ⟨_, Function.update_self _ _ _, (rpcSendExt_left run).1⟩
  | sent was run => exact Or.inl (Function.update_self _ _ _)
  | receives was run => cases was.symm.trans active
  | returns was run => cases was.symm.trans active

/-- A server does not fill another slot for a client that has not asked again. -/
theorem Step.not_filling (next : Step nn nc σ l σ') (done : ¬ σ.Filling srv n c)
    (same : (labelled n c (σ'.replied srv)).length ≤ (labelled n c (σ.replied srv)).length) : ¬ σ'.Filling srv n c := by
  rintro ⟨ptr, s, active, early⟩
  by_cases own : l.agent = .server srv
  · rcases next.server own with ⟨nid, cid, msg, _, _, rfl⟩ | ⟨_, _, rfl⟩ | ⟨rfl, _⟩
    · cases (Function.update_self (β := fun _ => Thread) _ _ _).symm.trans active
      rw [show Sys.replied _ srv = _ from Function.update_self _ _ _, labelled_append, labelled_self, List.length_append] at same
      exact absurd same (Nat.not_succ_le_self _)
    · cases (Function.update_self (β := fun _ => Thread) _ _ _).symm.trans active
    · cases next with
      | @sends _ _ _ s₀ _ _ _ was run =>
        cases (Function.update_self (β := fun _ => Thread) _ _ _).symm.trans active
        by_cases last : s₀.pc = .pos
        · simp [rpcSendExt, last] at run
        · exact done ⟨_, _, was, last⟩
      | sent was run => cases (Function.update_self (β := fun _ => Thread) _ _ _).symm.trans active
      | receives was run => cases (Function.update_self (β := fun _ => Thread) _ _ _).symm.trans active
      | returns was run => cases (Function.update_self (β := fun _ => Thread) _ _ _).symm.trans active
  · rw [(next.sameServer own).thread] at active
    exact done ⟨ptr, s, active, early⟩

/-- **The reply gets into the ring**. -/
theorem Execution.published (e : Execution nn nc srv n c) (fair : e.Fair (.server srv)) {k : Nat} (waiting : Waiting srv n c R (e.state k))
    (answered : (labelled n c ((e.state k).replied srv)).length = R + 1) :
    ∃ j ≥ k, Served srv n c R (e.state j) ∨ Waiting srv n c R (e.state j) ∧
      (labelled n c ((e.state j).replied srv)).length = R + 1 ∧ ¬ (e.state j).Filling srv n c := by
  by_cases filling : (e.state k).Filling srv n c
  swap
  · exact ⟨k, le_rfl, Or.inr ⟨waiting, answered, filling⟩⟩
  refine eventually
    (fun σ => Waiting srv n c R σ ∧ (labelled n c (σ.replied srv)).length = R + 1 ∧ σ.Filling srv n c)
    (fun σ => Served srv n c R σ ∨ Waiting srv n c R σ ∧ (labelled n c (σ.replied srv)).length = R + 1 ∧ ¬ σ.Filling srv n c)
    (Sys.sendLeft · srv) fair (fun j here => ?_) ⟨waiting, answered, filling⟩
  obtain ⟨waits, sent, ptr, s, active, early⟩ := here
  rcases waits.step (e.run j).ok (e.next j) with still | served
  · by_cases own : (e.label j).agent = .server srv
    · rcases (e.next j).server own with ⟨_, _, _, _, idle, _⟩ | ⟨_, idle, _⟩ | ⟨micro, _⟩
      · rw [active] at idle
        cases idle
      · rw [active] at idle
        cases idle
      · have next := e.next j
        rw [micro] at next
        have sent' : (labelled n c ((e.state (j + 1)).replied srv)).length = R + 1 := by
          rw [next.serverMicro.1]
          exact sent
        by_cases filling' : (e.state (j + 1)).Filling srv n c
        · refine Or.inr ⟨⟨still, sent', filling'⟩, ?_⟩
          have less : (e.state (j + 1)).sendLeft srv < (e.state j).sendLeft srv := by
            obtain ⟨_, s', active', _⟩ := filling'
            rcases next.send_left active with idle | ⟨s₁, active₁, less⟩
            · rw [idle] at active'
              cases active'
            · simpa only [Sys.sendLeft, active, active₁] using less
          exact ⟨less.le, fun _ => less⟩
        · exact Or.inl (Or.inr ⟨still, sent', filling'⟩)
    · have same := (e.next j).sameServer own
      refine Or.inr ⟨⟨still, by rw [same.replied, sent], ptr, s, by rw [same.thread, active], early⟩, le_of_eq ?_,
        fun turn => absurd turn own⟩
      simp only [Sys.sendLeft, same.thread]
  · exact Or.inl (Or.inl served)

/-- What a client has still to do to get a reply that is there. -/
def Sys.recvLeft (σ : Sys) (n c : Nat) : Nat :=
  match σ.threads (.client n c) with
  | .receiving _ _ r => r.left
  | _ => 0

theorem Step.replied_grows (next : Step nn nc σ l σ') (srv n c : Nat) :
    (labelled n c (σ.replied srv)).length ≤ (labelled n c (σ'.replied srv)).length := by
  by_cases own : l.agent = .server srv
  · rcases next.server own with ⟨nid, cid, msg, _, _, rfl⟩ | ⟨_, _, rfl⟩ | ⟨rfl, _⟩
    · rw [show Sys.replied (σ.rpcSendServer srv nid cid msg) srv = _ from Function.update_self _ _ _, labelled_append, List.length_append]
      exact Nat.le_add_right _ _
    · exact le_rfl
    · rw [next.serverMicro.1]
  · rw [(next.sameServer own).replied]

/-- A step of a client whose reply is there. -/
theorem Waiting.recv_left (waiting : Waiting srv n c R σ) (ok : SysOk σ)
    (there : (σ.got ⟨.reply, srv, n, c⟩).length < (σ.chan ⟨.reply, srv, n, c⟩).published) (next : Step nn nc σ l σ')
    (own : l.agent = .client n c) (still : Waiting srv n c R σ') : σ'.recvLeft n c < σ.recvLeft n c := by
  obtain ⟨ptr, r, active, spin⟩ := waiting.spins
  cases next with
  | send idle =>
    obtain ⟨rfl, rfl⟩ := Agent.client.inj own
    cases active.symm.trans idle
  | sendServer => cases own
  | recv idle =>
    obtain ⟨rfl, rfl⟩ := Agent.client.inj own
    cases active.symm.trans idle
  | recvServer => cases own
  | sends was =>
    obtain rfl : _ = _ := own
    cases was.symm.trans active
  | sent was =>
    obtain rfl : _ = _ := own
    cases was.symm.trans active
  | receives was run =>
    obtain rfl : _ = _ := own
    cases was.symm.trans active
    obtain ⟨fits, ends, _⟩ := ok.receiving_fits active
    have less := (rpcRecvExt_left run (fun look => Or.inl (ok.finds active there look)) fits fun here => (ends here).1).1
    simpa only [Sys.recvLeft, active, Sys.setThread, Sys.setSlot, Function.update_self] using less
  | returns was run =>
    obtain rfl : _ = _ := own
    obtain ⟨_, _, active', _⟩ := still.spins
    cases (Function.update_self (β := fun _ => Thread) _ _ _).symm.trans active'

/-- **The client finds the reply**. -/
theorem Execution.served (e : Execution nn nc srv n c) (fair : e.Fair (.client n c)) {k : Nat} (waiting : Waiting srv n c R (e.state k))
    (answered : (labelled n c ((e.state k).replied srv)).length = R + 1) (done : ¬ (e.state k).Filling srv n c) :
    ∃ j ≥ k, Served srv n c R (e.state j) := by
  refine eventually
    (fun σ => Waiting srv n c R σ ∧ (labelled n c (σ.replied srv)).length = R + 1 ∧ ¬ σ.Filling srv n c)
    (Served srv n c R) (Sys.recvLeft · n c) fair (fun j here => ?_) ⟨waiting, answered, done⟩
  obtain ⟨waits, sent, filled⟩ := here
  rcases waits.step (e.run j).ok (e.next j) with still | served
  · have counts := still.counts (e.run (j + 1))
    have grows := (e.next j).replied_grows srv n c
    refine Or.inr ⟨⟨still, by omega, (e.next j).not_filling filled (by omega)⟩, ?_⟩
    by_cases own : (e.label j).agent = .client n c
    · have there : ((e.state j).got ⟨.reply, srv, n, c⟩).length < ((e.state j).chan ⟨.reply, srv, n, c⟩).published := by
        rw [Sys.published_reply sent filled]
        exact waits.returned ▸ Nat.lt_succ_self _
      have less := waits.recv_left (e.run j).ok there (e.next j) own still
      exact ⟨less.le, fun _ => less⟩
    · have same := (e.next j).sameClient own
      refine ⟨le_of_eq ?_, fun turn => absurd turn own⟩
      simp only [Sys.recvLeft, same.thread]
  · exact Or.inl served

theorem Step.requests_grow (next : Step nn nc σ l σ') (srv n c : Nat) : σ.requests n c srv <+: σ'.requests n c srv := by
  by_cases own : l.agent = .client n c
  · cases next with
    | @send n' c' node msg idle =>
      obtain ⟨rfl, rfl⟩ := Agent.client.inj own
      by_cases this : node = srv
      · subst this
        rw [show (σ.rpcSend n' c' node msg).requests n' c' node = σ.requests n' c' node ++ [msg] from update_three_self]
        exact List.prefix_append _ _
      · have same : (σ.rpcSend n' c' node msg).requests n' c' srv = σ.requests n' c' srv :=
          update_three_other (by rintro ⟨_, _, same⟩; exact this same.symm)
        exact same ▸ List.prefix_rfl
    | sendServer => cases own
    | recv => exact List.prefix_rfl
    | recvServer => cases own
    | sends => exact List.prefix_rfl
    | sent => exact List.prefix_rfl
    | receives => exact List.prefix_rfl
    | returns =>
      obtain rfl : _ = _ := own
      exact List.prefix_rfl
  · exact (next.sameClient own).requests ▸ List.prefix_rfl

theorem Execution.requests_grow (e : Execution nn nc srv n c) {j k : Nat} (later : k ≤ j) :
    (e.state k).requests n c srv <+: (e.state j).requests n c srv := by
  induction j, later using Nat.le_induction with
  | base => exact List.prefix_rfl
  | succ j _ ih => exact ih.trans ((e.next j).requests_grow srv n c)

/-- **A client that waits gets its reply**. -/
theorem Execution.gets_reply (e : Execution nn nc srv n c) (ring : InTurn nn nc (n, c)) (server : e.Fair (.server srv))
    (client : e.Fair (.client n c)) {k : Nat} (waiting : Waiting srv n c R (e.state k)) : ∃ j ≥ k, Served srv n c R (e.state j) := by
  obtain ⟨j₁, later₁, served | ⟨waiting₁, received⟩⟩ := e.received ring server waiting
  · exact ⟨j₁, later₁, served⟩
  obtain ⟨j₂, later₂, served | ⟨waiting₂, answered⟩⟩ := e.answered server waiting₁ received
  · exact ⟨j₂, later₁.trans later₂, served⟩
  obtain ⟨j₃, later₃, served | ⟨waiting₃, answered', done⟩⟩ := e.published server waiting₂ answered
  · exact ⟨j₃, later₁.trans (later₂.trans later₃), served⟩
  obtain ⟨j₄, later₄, served⟩ := e.served client waiting₃ answered' done
  exact ⟨j₄, later₁.trans (later₂.trans (later₃.trans later₄)), served⟩

end

/-- **Messages are delivered once, in order and to the right core**: what a server returns with the label of a
core is a prefix of what that core sent it, and what a core returns is a prefix of what the server sent it. A
client that waits for each reply gets the one the server sent for its last request, if the server answers each
request and both keep taking steps. -/
theorem rpc_exactly_once (nn nc : Nat) :
    (∀ σ, Run nn nc (fun _ _ => True) σ → ∀ srv nid cid, labelled nid cid (σ.log srv) <+: σ.requests nid cid srv ∧
      σ.returned nid cid srv <+: labelled nid cid (σ.replied srv)) ∧
    ∀ srv n c, n < nn → c < nc → ∀ e : Execution nn nc srv n c, e.Fair (.server srv) → e.Fair (.client n c) →
      ∀ k R req, Waiting srv n c R (e.state k) → ((e.state k).requests n c srv)[R]? = some req →
        ∃ j ≥ k, ∃ rep, ((e.state j).returned n c srv)[R]? = some rep ∧ ((e.state j).answers srv n c)[R]? = some (req, rep) := by
  refine ⟨fun σ run => run.prefixes, fun srv n c node core e server client k R req waiting asked => ?_⟩
  obtain ⟨j, later, served⟩ := e.gets_reply ⟨node, core⟩ server client waiting
  have inside : R < ((e.state j).returned n c srv).length := by
    rw [served.returned]
    exact Nat.lt_succ_self R
  have got := List.getElem?_eq_getElem inside
  exact ⟨j, later, _, got, (e.run j).reply_of (getElem?_grow (e.requests_grow later) asked) got⟩

/-! ## One client and one server -/

section
variable {σ : Sys}

theorem Run.labels_zero {allowed : Sys → Label → Prop} (run : Run 1 1 allowed σ) : ∀ e ∈ σ.log 0, e.1 = 0 ∧ e.2.1 = 0 := by
  induction run with
  | init => simp
  | @step σ σ' l before _ next ih =>
    by_cases own : l.agent = .server 0
    · rcases next.server own with ⟨_, _, _, _, _, rfl⟩ | ⟨_, _, rfl⟩ | ⟨rfl, _⟩
      · exact ih
      · exact ih
      · have polls : Polling 1 1 0 σ := before.polling Nat.one_pos Nat.one_pos
        have turn := polls.turn
        cases next with
        | sends => exact ih
        | sent => exact ih
        | receives => exact ih
        | returns =>
          intro e member
          rw [returns_log] at member
          rcases List.mem_append.mp member with old | new
          · exact ih e old
          · split_ifs at new
            · cases new
            · rw [List.mem_singleton.mp new]
              exact ⟨Nat.lt_one_iff.mp turn.1, Nat.lt_one_iff.mp turn.2⟩
    · rw [(next.sameServer own).log]
      exact ih

/-- Both cores can always take a step. -/
theorem Run.can_move (run : Run 1 1 (Sync 0 0 0) σ) {a : Agent} (mine : a = .server 0 ∨ a = .client 0 0) :
    ∃ l σ', l.agent = a ∧ Sync 0 0 0 σ l ∧ Step 1 1 σ l σ' := by
  cases thread : σ.threads a with
  | sending q ptr s =>
    rcases step : rpcSendExt (σ.rings q s.cur) (σ.pos ptr) s with ⟨slot, pos, s'⟩
    cases s' with
    | none => exact ⟨.micro a, _, rfl, trivial, .sent thread step⟩
    | some s' => exact ⟨.micro a, _, rfl, trivial, .sends thread step⟩
  | receiving q ptr r =>
    rcases step : rpcRecvExt (σ.rings q r.cur) (σ.pos ptr) r with ⟨slot, pos, out⟩
    cases out with
    | inl r' => exact ⟨.micro a, _, rfl, trivial, .receives thread step⟩
    | inr msg => exact ⟨.micro a, _, rfl, trivial, .returns thread step⟩
  | idle =>
    rcases mine with rfl | rfl
    · by_cases even : (σ.log 0).length = (σ.replied 0).length
      · exact ⟨.recvServer 0, _, rfl, fun _ => even, .recvServer thread⟩
      · -- the server owes a reply, to the only core there is
        have sync := run.sync
        have labels := run.labels_zero
        obtain ⟨front, ⟨nid, cid, req⟩, log⟩ : ∃ front e, σ.log 0 = front ++ [e] := by
          rcases List.eq_nil_or_concat (σ.log 0) with empty | ⟨front, e, log⟩
          · have short := sync.labels.length_le
            rw [List.length_map, List.length_map] at short
            rw [empty, List.length_nil] at short even
            omega
          · exact ⟨front, e, by rw [log, List.concat_eq_append]⟩
        obtain ⟨rfl, rfl⟩ : nid = 0 ∧ cid = 0 := labels (nid, cid, req) (by simp [log])
        have due : front.length = (σ.replied 0).length := by
          have short := sync.labels.length_le
          have most := sync.owes
          rw [List.length_map, List.length_map] at short
          rw [log, List.length_append, List.length_singleton] at short most even
          omega
        refine ⟨.sendServer 0 0 0 [0], _, rfl, fun _ => ⟨front, req, log, due⟩, .sendServer thread le_rfl (by decide) ?_⟩
        obtain ⟨first, second⟩ := answers_fst 0 0 sync.labels
        have asked := (run.prefixes 0 0 0).1.length_le
        have pairs := first.length_le
        have count := congrArg List.length second
        have waits := sync.waits
        rw [List.length_map] at pairs count
        have most : (labelled 0 0 (σ.replied 0)).length ≤ (σ.returned 0 0 0).length + 1 := by omega
        exact lt_of_le_of_lt most (Nat.add_lt_add_left (by decide) _)
    · exact ⟨.recv 0 0 0 true, _, rfl, trivial, .recv thread⟩

/-- The core whose turn it is. -/
def whose (k : Nat) : Agent := if k % 2 = 0 then .server 0 else .client 0 0

theorem Run.execution (run : Run 1 1 (Sync 0 0 0) σ) :
    ∃ e : Execution 1 1 0 0 0, e.state 0 = σ ∧ e.Fair (.server 0) ∧ e.Fair (.client 0 0) := by
  have mine : ∀ k, whose k = .server 0 ∨ whose k = .client 0 0 := by
    intro k
    unfold whose
    split_ifs
    · exact Or.inl rfl
    · exact Or.inr rfl
  have move : ∀ (k : Nat) (s : { σ // Run 1 1 (Sync 0 0 0) σ }), ∃ (l : Label) (s' : { σ // Run 1 1 (Sync 0 0 0) σ }),
      l.agent = whose k ∧ Sync 0 0 0 s.1 l ∧ Step 1 1 s.1 l s'.1 := by
    intro k s
    obtain ⟨l, σ', agent, allow, next⟩ := s.2.can_move (mine k)
    exact ⟨l, ⟨σ', s.2.step allow next⟩, agent, allow, next⟩
  choose label next agent allow step using move
  let states : Nat → { σ // Run 1 1 (Sync 0 0 0) σ } := fun k => Nat.rec ⟨σ, run⟩ (fun k s => next k s) k
  refine ⟨⟨fun k => (states k).1, fun k => label k (states k), run, fun k => allow k _, fun k => step k _⟩, rfl, ?_, ?_⟩
  · refine fun k => ⟨2 * k, by omega, ?_⟩
    exact (agent (2 * k) _).trans (if_pos (by omega))
  · refine fun k => ⟨2 * k + 1, by omega, ?_⟩
    exact (agent (2 * k + 1) _).trans (if_neg (by omega))

end

/-- A core that sends can finish its call. -/
theorem Run.send_finishes {nn nc : Nat} {srv n c : Nat} {σ : Sys} {a : Agent} {q : Ring} {ptr : PosPtr} {s : Sending}
    (run : Run nn nc (Sync srv n c) σ) (active : σ.threads a = .sending q ptr s) :
    ∃ σ', Run nn nc (Sync srv n c) σ' ∧ σ'.threads a = .idle ∧ σ'.requests = σ.requests ∧ σ'.returned = σ.returned := by
  generalize measure : s.left = steps
  induction steps using Nat.strong_induction_on generalizing σ s with
  | _ steps ih =>
    rcases step : rpcSendExt (σ.rings q s.cur) (σ.pos ptr) s with ⟨slot, pos, s'⟩
    cases s' with
    | none => exact ⟨_, run.step (l := .micro a) trivial (.sent active step), Function.update_self _ _ _, rfl, rfl⟩
    | some s' =>
      have less := (rpcSendExt_left step).1
      obtain ⟨σ', run', idle, requests, returned⟩ :=
        ih s'.left (by omega) (run.step (l := .micro a) trivial (.sends active step)) (Function.update_self _ _ _) rfl
      exact ⟨σ', run', idle, requests, returned⟩

/-- Rings that are not in use, before the first call. -/
def emptySys : Sys :=
  ⟨fun _ _ => ⟨0, 0, fun _ => 0⟩, fun _ => 0, fun _ => 0, fun _ => 0, fun _ => .idle, fun _ _ _ => [], fun _ _ _ => [],
    fun _ => [], fun _ => []⟩

/-- A client that has sent the byte 7 spins for the reply. -/
theorem exists_waiting : ∃ σ, Run 1 1 (Sync 0 0 0) σ ∧ Waiting 0 0 0 0 σ ∧ (σ.requests 0 0 0)[0]? = some [7] := by
  have empty : Run 1 1 (Sync 0 0 0) emptySys := .init _ fun _ _ => rfl
  have send : Step 1 1 emptySys (.send 0 0 0 [7]) (emptySys.rpcSend 0 0 0 [7]) := .send rfl le_rfl (by decide) (by decide)
  have begun : Run 1 1 (Sync 0 0 0) (emptySys.rpcSend 0 0 0 [7]) := empty.step (l := .send 0 0 0 [7]) (fun _ _ _ => rfl) send
  obtain ⟨σ, sent, idle, requests, returned⟩ := begun.send_finishes (a := .client 0 0) rfl
  refine ⟨_, sent.step (l := .recv 0 0 0 true) trivial (@Step.recv 1 1 σ 0 0 0 true idle), ⟨⟨_, _, rfl, rfl⟩, ?_, ?_⟩, ?_⟩
  · exact (congrArg (fun f => (f 0 0 0).length) requests).trans rfl
  · exact (congrArg (fun f => (f 0 0 0).length) returned).trans rfl
  · exact (congrArg (fun f => (f 0 0 0)[0]?) requests).trans rfl

theorem rpc_exactly_once_first_request :
    ∃ (e : Execution 1 1 0 0 0) (j : Nat) (rep : Msg), Waiting 0 0 0 0 (e.state 0) ∧ ((e.state j).returned 0 0 0)[0]? = some rep ∧
      ((e.state j).answers 0 0 0)[0]? = some ([7], rep) := by
  obtain ⟨σ, run, waiting, request⟩ := exists_waiting
  obtain ⟨e, rfl, server, client⟩ := run.execution
  obtain ⟨j, _, rep, got, answer⟩ := (rpc_exactly_once 1 1).2 0 0 0 Nat.one_pos Nat.one_pos e server client 0 0 [7] waiting request
  exact ⟨e, j, rep, waiting, got, answer⟩

end BiProject.Rpc
