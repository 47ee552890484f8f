import BiProject.Rpc.Channel

/-!
# Delivery on every channel

The system of all cores is a family of channels: a step of a core is a step of one end of one channel and
leaves the others as they are, because each end of a ring belongs to one core and has a position of its own.
What holds of a channel therefore holds of all of them in every run.
-/

namespace BiProject.Rpc
set_option autoImplicit false

/-! ## The ends of a ring -/

/-- Who sends on a ring, -/
def Ring.sender (q : Ring) : Agent :=
  match q.way with
  | .request => .client q.nid q.cid
  | .reply => .server q.srv

/-- and who receives. -/
def Ring.receiver (q : Ring) : Agent :=
  match q.way with
  | .request => .server q.srv
  | .reply => .client q.nid q.cid

/-- The position that the sender keeps, -/
def Ring.sendPtr (q : Ring) : PosPtr :=
  match q.way with
  | .request => ⟨q.nid, .sntHead, q.srv, q.cid⟩
  | .reply => ⟨q.srv, .rcvHead, q.nid, q.cid⟩

/-- and the receiver's. -/
def Ring.recvPtr (q : Ring) : PosPtr :=
  match q.way with
  | .request => ⟨q.srv, .sntTail, q.nid, q.cid⟩
  | .reply => ⟨q.nid, .rcvTail, q.srv, q.cid⟩

/-- Nobody sends to itself. -/
theorem Ring.sender_ne_receiver (q : Ring) : q.sender ≠ q.receiver := by
  obtain ⟨way, srv, nid, cid⟩ := q
  cases way <;> simp [Ring.sender, Ring.receiver]

/-- The positions of the two ends are never the same, -/
theorem Ring.sendPtr_ne_recvPtr (q q' : Ring) : q.sendPtr ≠ q'.recvPtr := by
  obtain ⟨way, srv, nid, cid⟩ := q
  obtain ⟨way', srv', nid', cid'⟩ := q'
  cases way <;> cases way' <;> simp [Ring.sendPtr, Ring.recvPtr]

/-- and no two rings share the sender's -/
theorem Ring.sendPtr_injective {q q' : Ring} (same : q.sendPtr = q'.sendPtr) : q = q' := by
  obtain ⟨way, srv, nid, cid⟩ := q
  obtain ⟨way', srv', nid', cid'⟩ := q'
  cases way <;> cases way' <;> simp_all [Ring.sendPtr]

/-- or the receiver's. -/
theorem Ring.recvPtr_injective {q q' : Ring} (same : q.recvPtr = q'.recvPtr) : q = q' := by
  obtain ⟨way, srv, nid, cid⟩ := q
  obtain ⟨way', srv', nid', cid'⟩ := q'
  cases way <;> cases way' <;> simp_all [Ring.recvPtr]

/-! ## The system as a family of channels -/

/-- The call of a core that sends on a ring, -/
def Thread.sendingOn (q : Ring) : Thread → Option Sending
  | .sending q' _ s => if q' = q then some s else none
  | _ => none

/-- and of one that receives on it. -/
def Thread.receivingOn (q : Ring) : Thread → Option Receiving
  | .receiving q' _ r => if q' = q then some r else none
  | _ => none

/-- The ring a core works on. -/
def Thread.ring : Thread → Option Ring
  | .idle => none
  | .sending q _ _ => some q
  | .receiving q _ _ => some q

/-- A ring with its two ends. -/
def Sys.chan (σ : Sys) (q : Ring) : Chan :=
  ⟨σ.rings q, σ.pos q.sendPtr, σ.pos q.recvPtr, σ.sent q, σ.got q, (σ.threads q.sender).sendingOn q,
    (σ.threads q.receiver).receivingOn q⟩

/-- A core works at its own end of a ring, and a server on the ring it polls. -/
def Sys.Placed (σ : Sys) (a : Agent) : Thread → Prop
  | .idle => True
  | .sending q ptr _ => q.sender = a ∧ ptr = q.sendPtr
  | .receiving q ptr _ => q.receiver = a ∧ ptr = q.recvPtr ∧
      ∀ srv, a = .server srv → q.nid = σ.svrNode srv ∧ q.cid = σ.svrCore srv

/-- **The invariant**: every ring is in order, and every core is at an end of the ring that it works on. -/
structure SysOk (σ : Sys) : Prop where
  placed : ∀ a, σ.Placed a (σ.threads a)
  chans : ∀ q, ChanOk (σ.chan q)

section
variable {nn nc : Nat} {σ σ' : Sys} {a : Agent} {q : Ring}

/-- A core on another ring does not send on this one, -/
theorem Thread.sendingOn_other {t : Thread} (other : t.ring ≠ some q) : t.sendingOn q = none := by
  cases t with
  | idle => rfl
  | sending q' ptr s => exact if_neg fun same => other (congrArg some same)
  | receiving q' ptr r => rfl

/-- nor receive on it. -/
theorem Thread.receivingOn_other {t : Thread} (other : t.ring ≠ some q) : t.receivingOn q = none := by
  cases t with
  | idle => rfl
  | sending q' ptr s => rfl
  | receiving q' ptr r => exact if_neg fun same => other (congrArg some same)

/-- A step of a core on another ring. -/
theorem Sys.chan_frame (threads : ∀ b, b ≠ a → σ'.threads b = σ.threads b) (old : (σ.threads a).ring ≠ some q)
    (new : (σ'.threads a).ring ≠ some q) (rings : σ'.rings q = σ.rings q) (head : σ'.pos q.sendPtr = σ.pos q.sendPtr)
    (tail : σ'.pos q.recvPtr = σ.pos q.recvPtr) (sent : σ'.sent q = σ.sent q) (got : σ'.got q = σ.got q) :
    σ'.chan q = σ.chan q := by
  have sending : (σ'.threads q.sender).sendingOn q = (σ.threads q.sender).sendingOn q := by
    by_cases here : q.sender = a
    · rw [here, Thread.sendingOn_other old, Thread.sendingOn_other new]
    · rw [threads _ here]
  have receiving : (σ'.threads q.receiver).receivingOn q = (σ.threads q.receiver).receivingOn q := by
    by_cases here : q.receiver = a
    · rw [here, Thread.receivingOn_other old, Thread.receivingOn_other new]
    · rw [threads _ here]
  simp only [Sys.chan, rings, head, tail, sent, got, sending, receiving]

/-- The other cores stay where they are. -/
theorem SysOk.placed_other (ok : SysOk σ) (threads : ∀ b, b ≠ a → σ'.threads b = σ.threads b)
    (polls : ∀ srv, a ≠ .server srv → σ'.svrNode srv = σ.svrNode srv ∧ σ'.svrCore srv = σ.svrCore srv)
    (here : σ'.Placed a (σ'.threads a)) (b : Agent) : σ'.Placed b (σ'.threads b) := by
  by_cases same : b = a
  · rw [same]
    exact here
  · rw [threads b same]
    have was := ok.placed b
    cases thread : σ.threads b with
    | idle => trivial
    | sending q ptr s =>
      rw [thread] at was
      exact was
    | receiving q ptr r =>
      rw [thread] at was
      refine ⟨was.1, was.2.1, ?_⟩
      rintro srv rfl
      obtain ⟨node, core⟩ := polls srv (Ne.symm same)
      rw [node, core]
      exact was.2.2 srv rfl

/-! ## Labels -/

@[simp] theorem labelled_nil (nid cid : Nat) : labelled nid cid [] = [] := rfl

@[simp] theorem labelled_append (nid cid : Nat) (l l' : List (Nat × Nat × Msg)) :
    labelled nid cid (l ++ l') = labelled nid cid l ++ labelled nid cid l' := List.filterMap_append

@[simp] theorem labelled_self (nid cid : Nat) (m : Msg) : labelled nid cid [(nid, cid, m)] = [m] := by
  simp [labelled]

/-- What another core sent has another label. -/
theorem labelled_other {nid cid n c : Nat} (m : Msg) (other : ¬ (n = nid ∧ c = cid)) : labelled nid cid [(n, c, m)] = [] := by
  simp only [labelled, List.filterMap_cons, List.filterMap_nil, if_neg other]

/-! ## Calls begin -/

/-- What a step leaves of the rings, the positions and the servers' turns. -/
structure SameMemory (σ σ' : Sys) : Prop where
  rings : σ'.rings = σ.rings
  pos : σ'.pos = σ.pos
  svrNode : σ'.svrNode = σ.svrNode
  svrCore : σ'.svrCore = σ.svrCore

/-- A core begins to send where a slot is free. -/
theorem SysOk.begin_send {msg : Msg} (ok : SysOk σ) (memory : SameMemory σ σ') (idle : σ.threads q.sender = .idle)
    (nonempty : 1 ≤ msg.length) (size : msg.length < maxMsgSize) (room : (σ.sent q).length < (σ.got q).length + msgNum)
    (threads : σ'.threads = Function.update σ.threads q.sender (.sending q q.sendPtr (rpcSendBegin (σ.pos q.sendPtr) msg)))
    (here : σ'.sent q = σ.sent q ++ [msg]) (others : ∀ q', q' ≠ q → σ'.sent q' = σ.sent q') (got : σ'.got = σ.got) : SysOk σ' := by
  have apart : ∀ b, b ≠ q.sender → σ'.threads b = σ.threads b := fun b other => by
    rw [threads, Function.update_of_ne other]
  have self : σ'.threads q.sender = .sending q q.sendPtr (rpcSendBegin (σ.pos q.sendPtr) msg) := by
    rw [threads, Function.update_self]
  refine ⟨ok.placed_other apart (fun srv _ => by rw [memory.svrNode, memory.svrCore]; exact ⟨rfl, rfl⟩) ?_, fun q' => ?_⟩
  · rw [self]
    exact ⟨rfl, rfl⟩
  · by_cases same : q' = q
    · subst same
      have before := ok.chans q'
      have quiet : (σ.chan q').sending = none := by simp only [Sys.chan, idle, Thread.sendingOn]
      have after := before.send_begin quiet nonempty size room
      have this : σ'.chan q' = { σ.chan q' with
          sending := some (rpcSendBegin (σ.chan q').head msg), sent := (σ.chan q').sent ++ [msg] } := by
        simp only [Sys.chan, memory.rings, memory.pos, self, here, got, apart _ q'.sender_ne_receiver.symm, Thread.sendingOn, if_true]
      rwa [this]
    · rw [Sys.chan_frame apart (by rw [idle]; simp [Thread.ring]) (by rw [self]; simpa [Thread.ring] using Ne.symm same)
        (by rw [memory.rings]) (by rw [memory.pos]) (by rw [memory.pos]) (others q' same) (by rw [got])]
      exact ok.chans q'

/-- A core begins to receive; a server on the ring that it polls. -/
theorem SysOk.begin_recv {spin : Bool} (ok : SysOk σ) (idle : σ.threads q.receiver = .idle)
    (turn : ∀ srv, q.receiver = .server srv → q.nid = σ.svrNode srv ∧ q.cid = σ.svrCore srv) :
    SysOk (σ.setThread q.receiver (.receiving q q.recvPtr (rpcRecvBegin (σ.pos q.recvPtr) spin))) := by
  have apart : ∀ b, b ≠ q.receiver →
      (σ.setThread q.receiver (.receiving q q.recvPtr (rpcRecvBegin (σ.pos q.recvPtr) spin))).threads b = σ.threads b :=
    fun b other => Function.update_of_ne other _ _
  have self : (σ.setThread q.receiver (.receiving q q.recvPtr (rpcRecvBegin (σ.pos q.recvPtr) spin))).threads q.receiver =
      .receiving q q.recvPtr (rpcRecvBegin (σ.pos q.recvPtr) spin) := Function.update_self _ _ _
  refine ⟨ok.placed_other apart (fun srv _ => ⟨rfl, rfl⟩) ?_, fun q' => ?_⟩
  · rw [self]
    exact ⟨rfl, rfl, turn⟩
  · by_cases same : q' = q
    · subst same
      have quiet : (σ.chan q').receiving = none := by simp only [Sys.chan, idle, Thread.receivingOn]
      have after := (ok.chans q').recv_begin quiet spin
      have this : (σ.setThread q'.receiver (.receiving q' q'.recvPtr (rpcRecvBegin (σ.pos q'.recvPtr) spin))).chan q' =
          { σ.chan q' with receiving := some (rpcRecvBegin (σ.chan q').tail spin) } := by
        rw [Sys.chan, self, apart _ q'.sender_ne_receiver]
        simp only [Thread.receivingOn, if_true]
        rfl
      rwa [this]
    · rw [Sys.chan_frame apart (by rw [idle]; simp [Thread.ring]) (by rw [self]; simpa [Thread.ring] using Ne.symm same)
        rfl rfl rfl rfl rfl]
      exact ok.chans q'

/-! ## Calls go on -/

/-- A core that sends stores to its slot or moves its position. -/
theorem SysOk.sends {s : Sending} {ptr : PosPtr} {slot : MsgNode} {pos : Nat} {s' : Option Sending} {t : Thread} (ok : SysOk σ)
    (active : σ.threads a = .sending q ptr s) (run : rpcSendExt (σ.rings q s.cur) (σ.pos ptr) s = (slot, pos, s'))
    (next : t = match s' with | some s' => .sending q ptr s' | none => .idle) :
    SysOk ((σ.setSlot q s.cur slot ptr pos).setThread a t) := by
  have placed := ok.placed a
  rw [active] at placed
  obtain ⟨rfl, rfl⟩ := placed
  have apart : ∀ b, b ≠ q.sender → ((σ.setSlot q s.cur slot q.sendPtr pos).setThread q.sender t).threads b = σ.threads b :=
    fun b other => Function.update_of_ne other _ _
  have self : ((σ.setSlot q s.cur slot q.sendPtr pos).setThread q.sender t).threads q.sender = t := Function.update_self _ _ _
  have ring : t.ring = some q ∨ t.ring = none := by
    rw [next]
    cases s' with
    | none => exact Or.inr rfl
    | some s' => exact Or.inl rfl
  refine ⟨ok.placed_other apart (fun srv _ => ⟨rfl, rfl⟩) ?_, fun q' => ?_⟩
  · rw [self, next]
    cases s' with
    | none => trivial
    | some s' => exact ⟨rfl, rfl⟩
  · by_cases same : q' = q
    · subst same
      have sending : (σ.chan q').sending = some s := by simp only [Sys.chan, active, Thread.sendingOn, if_true]
      have after := (ok.chans q').send_step sending run
      have this : ((σ.setSlot q' s.cur slot q'.sendPtr pos).setThread q'.sender t).chan q' =
          { σ.chan q' with slot := Function.update (σ.rings q') s.cur slot, head := pos, sending := s' } := by
        rw [Sys.chan, self, apart _ q'.sender_ne_receiver.symm]
        have ended : t.sendingOn q' = s' := by
          rw [next]
          cases s' with
          | none => rfl
          | some s' => simp only [Thread.sendingOn, if_true]
        rw [ended]
        simp only [Sys.setThread, Sys.setSlot, Function.update_self, Function.update_of_ne (q'.sendPtr_ne_recvPtr q').symm]
        rfl
      rw [this]
      exact after
    · rw [Sys.chan_frame apart (by rw [active]; simpa [Thread.ring] using Ne.symm same) ?_ (Function.update_of_ne same _ _)
        (Function.update_of_ne (fun equal => same (Ring.sendPtr_injective equal)) _ _)
        (Function.update_of_ne (q.sendPtr_ne_recvPtr q').symm _ _) rfl rfl]
      · exact ok.chans q'
      · rw [self]
        rcases ring with on | none
        · rw [on]
          simpa using Ne.symm same
        · rw [none]
          simp

/-- A core that receives goes on, or returns what it has. -/
theorem SysOk.receives {r : Receiving} {ptr : PosPtr} {slot : MsgNode} {pos : Nat} {out : Receiving ⊕ Msg} (ok : SysOk σ)
    (active : σ.threads a = .receiving q ptr r) (run : rpcRecvExt (σ.rings q r.cur) (σ.pos ptr) r = (slot, pos, out))
    (threads : ∀ b, b ≠ a → σ'.threads b = σ.threads b)
    (self : σ'.threads a = match out with | .inl r' => .receiving q ptr r' | .inr _ => .idle)
    (rings : σ'.rings = Function.update σ.rings q (Function.update (σ.rings q) r.cur slot))
    (positions : σ'.pos = Function.update σ.pos ptr pos)
    (turn : ∀ srv, (out.isLeft ∨ a ≠ .server srv) → σ'.svrNode srv = σ.svrNode srv ∧ σ'.svrCore srv = σ.svrCore srv)
    (sent : σ'.sent = σ.sent) (others : ∀ q', q' ≠ q → σ'.got q' = σ.got q')
    (here : σ'.got q = σ.got q ++ match out with | .inl _ => [] | .inr msg => if msg = [] then [] else [msg]) : SysOk σ' := by
  have placed := ok.placed a
  rw [active] at placed
  obtain ⟨rfl, rfl, polls⟩ := placed
  have ring : (σ'.threads q.receiver).ring = some q ∨ (σ'.threads q.receiver).ring = none := by
    rw [self]
    cases out with
    | inl r' => exact Or.inl rfl
    | inr msg => exact Or.inr rfl
  refine ⟨ok.placed_other threads (fun srv other => turn srv (Or.inr other)) ?_, fun q' => ?_⟩
  · rw [self]
    cases out with
    | inr msg => trivial
    | inl r' =>
      refine ⟨rfl, rfl, fun srv this => ?_⟩
      obtain ⟨node, core⟩ := turn srv (Or.inl rfl)
      rw [node, core]
      exact polls srv this
  · by_cases same : q' = q
    · subst same
      have receiving : (σ.chan q').receiving = some r := by simp only [Sys.chan, active, Thread.receivingOn, if_true]
      have slots : σ'.rings q' = Function.update (σ.rings q') r.cur slot := by rw [rings, Function.update_self]
      have tail : σ'.pos q'.recvPtr = pos := by rw [positions, Function.update_self]
      have head : σ'.pos q'.sendPtr = σ.pos q'.sendPtr := by
        rw [positions, Function.update_of_ne (q'.sendPtr_ne_recvPtr q')]
      cases out with
      | inl r' =>
        have after := (ok.chans q').recv_step receiving run
        have this : σ'.chan q' = { σ.chan q' with
            slot := Function.update (σ.rings q') r.cur slot, tail := pos, receiving := some r' } := by
          simp only [Sys.chan, self, threads _ q'.sender_ne_receiver, slots, tail, head, sent, here, List.append_nil,
            Thread.receivingOn, if_true]
        rw [this]
        exact after
      | inr msg =>
        have after := (ok.chans q').recv_return receiving run
        have this : σ'.chan q' = { σ.chan q' with
            slot := Function.update (σ.rings q') r.cur slot, tail := pos, receiving := none
            got := σ.got q' ++ if msg = [] then [] else [msg] } := by
          simp only [Sys.chan, self, threads _ q'.sender_ne_receiver, slots, tail, head, sent, here, Thread.receivingOn]
        rw [this]
        exact after
    · rw [Sys.chan_frame threads (by rw [active]; simpa [Thread.ring] using Ne.symm same) ?_
        (by rw [rings, Function.update_of_ne same]) (by rw [positions, Function.update_of_ne (q'.sendPtr_ne_recvPtr q)])
        (by rw [positions, Function.update_of_ne fun equal => same (Ring.recvPtr_injective equal)]) (by rw [sent]) (others q' same)]
      · exact ok.chans q'
      · rcases ring with on | none
        · rw [on]
          simpa using Ne.symm same
        · rw [none]
          simp

/-! ## Every step -/

/-- A table with three indices, changed at one entry. -/
theorem update_three_self {f : Nat → Nat → Nat → List Msg} {n c k : Nat} {l : List Msg} :
    Function.update f n (Function.update (f n) c (Function.update (f n c) k l)) n c k = l := by
  simp only [Function.update_self]

/-- The other entries stay. -/
theorem update_three_other {f : Nat → Nat → Nat → List Msg} {n c k n' c' k' : Nat} {l : List Msg} (differ : ¬ (n' = n ∧ c' = c ∧ k' = k)) :
    Function.update f n (Function.update (f n) c (Function.update (f n c) k l)) n' c' k' = f n' c' k' := by
  by_cases sameN : n' = n
  · subst sameN
    rw [Function.update_self]
    by_cases sameC : c' = c
    · subst sameC
      rw [Function.update_self, Function.update_of_ne fun same => differ ⟨rfl, rfl, same⟩]
    · rw [Function.update_of_ne sameC]
  · rw [Function.update_of_ne sameN]

/-- A client receives on its ring of replies, -/
theorem Ring.of_receiver_client {n c : Nat} (end' : q.receiver = .client n c) : q = ⟨.reply, q.srv, n, c⟩ := by
  obtain ⟨way, srv, nid, cid⟩ := q
  cases way
  · cases end'
  · obtain ⟨rfl, rfl⟩ := Agent.client.inj end'
    rfl

/-- and a server on a ring of requests. -/
theorem Ring.of_receiver_server {srv : Nat} (end' : q.receiver = .server srv) : q = ⟨.request, srv, q.nid, q.cid⟩ := by
  obtain ⟨way, srv', nid, cid⟩ := q
  cases way
  · obtain rfl := Agent.server.inj end'
    rfl
  · cases end'

/-- Two rings of the same kind and server have different labels. -/
theorem Ring.label_ne {way : Way} {srv nid cid : Nat} {q' : Ring} (differ : q' ≠ ⟨way, srv, nid, cid⟩) (kind : q'.way = way)
    (same : q'.srv = srv) : ¬ (nid = q'.nid ∧ cid = q'.cid) := by
  rintro ⟨rfl, rfl⟩
  apply differ
  rw [← kind, ← same]

/-- **Every step keeps the invariant**, -/
theorem SysOk.step {l : Label} (ok : SysOk σ) (next : Step nn nc σ l σ') : SysOk σ' := by
  cases next with
  | @send n c node msg idle nonempty size room =>
    refine @SysOk.begin_send σ _ (getSendRing n c node) msg ok ⟨rfl, rfl, rfl, rfl⟩ idle nonempty size room rfl ?_ ?_ rfl
    · exact update_three_self
    · rintro ⟨way, srv, nid, cid⟩ differ
      cases way with
      | reply => rfl
      | request => exact update_three_other (by rintro ⟨rfl, rfl, rfl⟩; exact differ rfl)
  | @sendServer srv nid cid msg idle nonempty size room =>
    refine @SysOk.begin_send σ _ (getSendRingServer srv nid cid) msg ok ⟨rfl, rfl, rfl, rfl⟩ idle nonempty size room rfl ?_ ?_ rfl
    · simp [Sys.sent, Sys.rpcSendServer, getSendRingServer]
    · rintro q' differ
      cases kind : q'.way with
      | request => simp only [Sys.sent, kind, Sys.rpcSendServer, Sys.setThread]
      | reply =>
        simp only [Sys.sent, kind, Sys.rpcSendServer]
        by_cases same : q'.srv = srv
        · rw [same, Function.update_self, labelled_append, labelled_other msg (Ring.label_ne differ kind same), List.append_nil]
        · rw [Function.update_of_ne same]
  | @recv n c node spin idle =>
    refine @SysOk.begin_recv σ (getRecvRing n c node) spin ok idle ?_
    intro srv server
    cases server
  | @recvServer srv idle =>
    refine @SysOk.begin_recv σ (getRecvRingServer srv (σ.svrNode srv) (σ.svrCore srv)) false ok idle ?_
    intro srv' server
    obtain rfl := Agent.server.inj server
    exact ⟨rfl, rfl⟩
  | sends active run => exact ok.sends active run rfl
  | sent active run => exact ok.sends active run rfl
  | receives active run =>
    refine ok.receives active run (fun b other => Function.update_of_ne other _ _) (Function.update_self _ _ _) rfl rfl
      (fun _ _ => ⟨rfl, rfl⟩) rfl (fun _ _ => rfl) ?_
    exact (List.append_nil _).symm
  | @returns a q ptr r slot pos msg active run =>
    have placed := ok.placed a
    rw [active] at placed
    obtain ⟨end', _, polls⟩ := placed
    cases a with
    | client n c =>
      obtain ⟨node, rfl⟩ : ∃ node, q = ⟨.reply, node, n, c⟩ := ⟨q.srv, Ring.of_receiver_client end'⟩
      refine ok.receives active run (fun b other => Function.update_of_ne other _ _) (Function.update_self _ _ _) rfl rfl
        (fun _ _ => ⟨rfl, rfl⟩) rfl ?_ ?_
      · rintro ⟨way, srv, nid, cid⟩ differ
        cases way with
        | request => rfl
        | reply => exact update_three_other (by rintro ⟨rfl, rfl, rfl⟩; exact differ rfl)
      · exact update_three_self
    | server srv =>
      have ring := Ring.of_receiver_server end'
      obtain ⟨node, core⟩ := polls srv rfl
      rw [node, core] at ring
      rw [ring] at active run ⊢
      refine ok.receives active run (fun b other => Function.update_of_ne other _ _) (Function.update_self _ _ _) rfl rfl
        (fun srv' other => ?_) rfl (fun q' differ => ?_) ?_
      · have differ : srv' ≠ srv := by
          rintro rfl
          simp at other
        exact ⟨Function.update_of_ne differ _ _, Function.update_of_ne differ _ _⟩
      · cases kind : q'.way with
        | reply => simp only [Sys.got, kind, Sys.returns, Sys.recvServerReturns, Sys.setThread, Sys.setSlot]
        | request =>
          simp only [Sys.got, kind, Sys.returns, Sys.recvServerReturns, Sys.setThread, Sys.setSlot]
          by_cases same : q'.srv = srv
          · rw [same, Function.update_self, labelled_append]
            split_ifs
            · rw [labelled_nil, List.append_nil]
            · rw [labelled_other msg (Ring.label_ne differ kind same), List.append_nil]
          · rw [Function.update_of_ne same]
      · simp only [Sys.got, Sys.returns, Sys.recvServerReturns, Sys.setThread, Sys.setSlot, Function.update_self, labelled_append]
        split_ifs
        · rfl
        · rw [labelled_self]

/-- which holds at the start, -/
theorem SysOk.init {rings : Ring → Nat → MsgNode} (unused : ∀ q i, (rings q i).use = 0) :
    SysOk ⟨rings, fun _ => 0, fun _ => 0, fun _ => 0, fun _ => .idle, fun _ _ _ => [], fun _ _ _ => [], fun _ => [], fun _ => []⟩ := by
  refine ⟨fun a => trivial, fun q => ?_⟩
  have nothing : (Sys.sent ⟨rings, fun _ => 0, fun _ => 0, fun _ => 0, fun _ => .idle, fun _ _ _ => [], fun _ _ _ => [], fun _ => [],
      fun _ => []⟩ q) = [] := by
    unfold Sys.sent
    split <;> rfl
  have none : (Sys.got ⟨rings, fun _ => 0, fun _ => 0, fun _ => 0, fun _ => .idle, fun _ _ _ => [], fun _ _ _ => [], fun _ => [],
      fun _ => []⟩ q) = [] := by
    unfold Sys.got
    split <;> rfl
  simp only [Sys.chan, nothing, none, Thread.sendingOn, Thread.receivingOn]
  refine ⟨by simp, List.nil_prefix, le_rfl, Nat.zero_le _, rfl, rfl, ?_, ?_, fun n _ _ => unused q _⟩
  · rintro r ⟨⟩
  · intro n m low high
    exact absurd high (Nat.not_lt_zero n)

/-- and so in every run. -/
theorem Run.ok {allowed : Sys → Label → Prop} (run : Run nn nc allowed σ) : SysOk σ := by
  induction run with
  | init rings unused => exact SysOk.init unused
  | step _ _ next ih => exact ih.step next

/-- What a server returns with a label is what that core sent it, in order, each message once; and a core
returns what that server sent it. -/
theorem Run.prefixes {allowed : Sys → Label → Prop} (run : Run nn nc allowed σ) (srv nid cid : Nat) :
    labelled nid cid (σ.log srv) <+: σ.requests nid cid srv ∧ σ.returned nid cid srv <+: labelled nid cid (σ.replied srv) :=
  ⟨(run.ok.chans ⟨.request, srv, nid, cid⟩).got, (run.ok.chans ⟨.reply, srv, nid, cid⟩).got⟩

end

end BiProject.Rpc
