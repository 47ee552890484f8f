import BiProject.RbTree.Cuts
import BiProject.Rpc.Progress
import BiProject.TreeService.ImpleBi

/-!
# The calls of the clients are linearizable

A call takes effect when the server handles its request. The replies of the server go with the requests it received, so the result a
client returns is what the tree gave for its own request; and the tree refines a map, so it is what the map gives at that point.
-/

namespace BiProject.TreeService
set_option autoImplicit false
open BiProject.Lib BiProject.Lib.Histories BiProject.RbTree
open BiProject.Rpc (Msg labelled)

/-! ## Messages -/

/-- A message is as long as the struct. -/
@[simp] theorem RbtreeMsg.length_toBytes (m : RbtreeMsg) : m.toBytes.length = sizeofRbtreeMsg := by
  simp [toBytes, sizeofRbtreeMsg]

/-- What is sent is what is read. -/
@[simp] theorem RbtreeMsg.ofBytes_toBytes (m : RbtreeMsg) : ofBytes m.toBytes = m := by
  have tree : leNat (leBytes 8 m.tree.toNat) = m.tree.toNat := leNat_leBytes m.tree.toNat_lt
  have key : leNat (leBytes 8 m.key.toNat) = m.key.toNat := leNat_leBytes m.key.toNat_lt
  have value : leNat (leBytes 8 m.value.toNat) = m.value.toNat := leNat_leBytes m.value.toNat_lt
  have type : leNat (leBytes 4 m.type.toNat) = m.type.toNat := leNat_leBytes m.type.toNat_lt
  have pad : leNat (leBytes 4 m.pad.toNat) = m.pad.toNat := leNat_leBytes m.pad.toNat_lt
  simp [ofBytes, toBytes, List.drop_append, List.take_of_length_le, List.drop_of_length_le, tree, key, value, type, pad]

/-! ## The handler -/

section
variable {fuel : Nat} {cells : Nat → Addr} {m : Mem} {t : Tree} {M : List Kv}

/-- **The handler does one call.** It meets its assertions, and its reply has what the map says. -/
theorem handler_call (tree value : UInt64) (rep : Represents m t M) (deep : maxNodes ≤ fuel) (small : M.length + 1 < maxNodes)
    (fresh : Fresh cells m) (call : Call) (junk : UInt64) (pad : UInt32) :
    ∃ m' v t', rbtreeMsgHandler fuel cells tree m value (call.msg tree junk pad).toBytes = some (m', v, (msgReply v).toBytes) ∧
      Represents m' t' (spec M call).1 ∧ call.result (msgReply v) = (spec M call).2 := by
  cases call with
  | insert key val =>
    obtain ⟨es, t', run, rep', _⟩ := rep.step deep (by omega) fresh (.insert key.toNat val.toNat)
    rw [Op.run, Option.map_eq_some_iff] at run
    obtain ⟨es', run, same⟩ := run
    obtain rfl : es' = es := (Prod.mk.inj same).2
    refine ⟨m.applyAll es', value, t', ?_, rep', rfl⟩
    simp [rbtreeMsgHandler, Call.msg, run]
  | erase key =>
    obtain ⟨es, t', run, rep', _⟩ := rep.step deep (by omega) fresh (.delete key.toNat)
    rw [Op.run, Option.map_eq_some_iff] at run
    obtain ⟨⟨v, es'⟩, run, same⟩ := run
    obtain ⟨val, rfl⟩ := Prod.mk.inj same
    refine ⟨m.applyAll es', UInt64.ofNat v, t', ?_, rep', ?_⟩
    · simp [rbtreeMsgHandler, Call.msg, run]
    · rw [Op.answer, Res.value.injEq] at val
      simp [Call.result, msgReply, spec, val]

/-- The size in the root says how many pairs there are. -/
theorem Represents.length_lt (rep : Represents m t M) (bound : M.length < maxNodes) (small : heapSize m.heap m.root + 1 < maxNodes) :
    M.length + 1 < maxNodes := by
  have nodes : t.numNodes < sizeLimit := by
    rw [rep.size]
    simp only [maxNodes, sizeLimit] at bound ⊢
    omega
  have size := heapSize_ptr rep.holds nodes
  rw [rep.root, rep.size] at size
  rw [size] at small
  omega

end

/-! ## What the rings carry -/

/-- The server answers each request before it polls again, and each client waits for its reply. -/
def AllSync (σ : Rpc.Sys) (l : Rpc.Label) : Prop := ∀ n c, Rpc.Sync 0 n c σ l

section
variable {nn nc : Nat} {σ : Rpc.Sys}

/-- A run is one under weaker conditions. -/
theorem run_mono {P Q : Rpc.Sys → Rpc.Label → Prop} (run : Rpc.Run nn nc P σ) (weaker : ∀ σ l, P σ l → Q σ l) : Rpc.Run nn nc Q σ := by
  induction run with
  | init rings unused => exact .init rings unused
  | step _ allow next ih => exact .step ih (weaker _ _ allow) next

/-- The messages of a core are as many as there are labels with its name. -/
theorem labelled_length (n c : Nat) (l : List (Nat × Nat × Msg)) : (labelled n c l).length = (l.map Rpc.labelOf).count (n, c) := by
  induction l with
  | nil => rfl
  | cons e l ih =>
    by_cases here : e.1 = n ∧ e.2.1 = c
    · have same : Rpc.labelOf e = (n, c) := Prod.ext here.1 here.2
      rw [labelled, List.filterMap_cons, if_pos here, List.map_cons, same, List.count_cons_self, ← ih]
      rfl
    · have other : Rpc.labelOf e ≠ (n, c) := fun same => here ⟨congrArg Prod.fst same, congrArg Prod.snd same⟩
      rw [labelled, List.filterMap_cons, if_neg here, List.map_cons, List.count_cons_of_ne other, ← ih]
      rfl

/-- No core gets more replies than the server sent, which sends no more than it got requests for, and no core sends fewer. -/
theorem lengths (run : Rpc.Run nn nc AllSync σ) (n c : Nat) :
    (σ.returned n c 0).length ≤ (labelled n c (σ.replied 0)).length ∧
      (labelled n c (σ.replied 0)).length ≤ (labelled n c (σ.log 0)).length ∧
      (labelled n c (σ.log 0)).length ≤ (σ.requests n c 0).length := by
  obtain ⟨asked, replies⟩ := run.prefixes 0 n c
  have sync := (run_mono run fun _ _ allow => allow n c).sync
  refine ⟨replies.length_le, ?_, asked.length_le⟩
  rw [labelled_length, labelled_length]
  exact sync.labels.sublist.count_le _

/-- A request that is not answered yet. -/
theorem owed (run : Rpc.Run nn nc AllSync σ) {nid cid : Nat} {req : Msg} {front : List (Nat × Nat × Msg)}
    (log : σ.log 0 = front ++ [(nid, cid, req)]) (due : front.length = (σ.replied 0).length) :
    (labelled nid cid (σ.log 0)).length = (labelled nid cid (σ.replied 0)).length + 1 := by
  have sync := (run_mono run fun _ _ allow => allow nid cid).sync
  have matched : Rpc.Matched (front ++ [(nid, cid, req)]) (σ.replied 0) := by
    rw [← log]
    exact ⟨sync.labels, sync.owes⟩
  rw [log, Rpc.labelled_append, Rpc.labelled_self, List.length_append, labelled_length nid cid (σ.replied 0), matched.front_labels due,
    ← labelled_length]
  rfl

end

/-! ## What a client waits for -/

/-- A call that has not returned. The client has sent `R` requests before, and got a reply for each. -/
structure Busy (tree : UInt64) (σ : Svc) (n c : Nat) (call : Call) (phase : Phase) (w : Pending Call (Option UInt64)) (R : Nat) : Prop where
  op : w.op = call
  request : ∃ junk pad, (σ.rpc.requests n c 0)[R]? = some (call.msg tree junk pad).toBytes
  sent : (σ.rpc.requests n c 0).length = R + 1
  sends : phase = .sends → (σ.rpc.returned n c 0).length = R ∧ ∀ q ptr r, σ.rpc.threads (.client n c) ≠ .receiving q ptr r
  waits : phase = .waits → Rpc.Waiting 0 n c R σ.rpc ∨ σ.rpc.threads (.client n c) = .idle ∧ (σ.rpc.returned n c 0).length = R + 1
  before : w.res = none → (labelled n c (σ.rpc.replied 0)).length = R
  after : ∀ r, w.res = some r → ∃ v, (labelled n c (σ.rpc.replied 0)).getLast? = some (msgReply v).toBytes ∧
    (labelled n c (σ.rpc.replied 0)).length = R + 1 ∧ call.result (msgReply v) = r

/-- A client has no call, or waits for one. -/
def ClientOk (tree : UInt64) (σ : Svc) (n c : Nat) (pend : Option (Pending Call (Option UInt64))) : Prop :=
  match σ.calls (n, c) with
  | none => pend = none ∧ σ.rpc.threads (.client n c) = .idle ∧ (σ.rpc.requests n c 0).length = (σ.rpc.returned n c 0).length
  | some (call, phase) => ∃ w R, pend = some w ∧ Busy tree σ n c call phase w R

/-- What holds in every state: the rings carry what the calls say, the tree is the map after the calls that took effect, and each client
waits for its own reply. -/
structure Ok (nn nc : Nat) (tree : UInt64) (M : List Kv) (σ : Svc) (es : List (Entry Call (Option UInt64)))
    (pend : Nat × Nat → Option (Pending Call (Option UInt64))) : Prop where
  rpc : Rpc.Run nn nc AllSync σ.rpc
  rep : ∃ t, Represents σ.mem t (after spec M es)
  bound : (after spec M es).length < maxNodes
  points : Points σ.hist es pend
  legal : Legal spec M es
  clients : ∀ n c, ClientOk tree σ n c (pend (n, c))

section
variable {nn nc fuel : Nat} {tree : UInt64} {M : List Kv} {σ σ' : Svc} {es : List (Entry Call (Option UInt64))}
  {pend : Nat × Nat → Option (Pending Call (Option UInt64))} {n c : Nat}

/-- What another core's step leaves of a client. -/
theorem ClientOk.frame {w : Option (Pending Call (Option UInt64))} (ok : ClientOk tree σ n c w) (calls : σ'.calls (n, c) = σ.calls (n, c))
    (same : Rpc.SameClient n c σ.rpc σ'.rpc) (replied : labelled n c (σ'.rpc.replied 0) = labelled n c (σ.rpc.replied 0)) :
    ClientOk tree σ' n c w := by
  unfold ClientOk at ok ⊢
  rw [calls]
  cases call : σ.calls (n, c) with
  | none =>
    rw [call] at ok
    rw [same.thread, same.requests, same.returned]
    exact ok
  | some p =>
    obtain ⟨call', phase⟩ := p
    rw [call] at ok
    obtain ⟨w', R, rfl, busy⟩ := ok
    refine ⟨w', R, rfl, busy.op, ?_, ?_, ?_, ?_, ?_, ?_⟩
    · rw [same.requests]
      exact busy.request
    · rw [same.requests]
      exact busy.sent
    · rw [same.returned, same.thread]
      exact busy.sends
    · intro here
      rw [same.returned, same.thread]
      refine (busy.waits here).imp_left fun waiting => ⟨?_, ?_, ?_⟩
      · rw [same.thread]
        exact waiting.spins
      · rw [same.requests]
        exact waiting.requests
      · rw [same.returned]
        exact waiting.returned
    · rw [replied]
      exact busy.before
    · rw [replied]
      exact busy.after

/-- A client without a call has got a reply for each request. -/
theorem ClientOk.free {w : Option (Pending Call (Option UInt64))} (ok : ClientOk tree σ n c w) (free : σ.calls (n, c) = none) :
    w = none ∧ σ.rpc.threads (.client n c) = .idle ∧ (σ.rpc.requests n c 0).length = (σ.rpc.returned n c 0).length := by
  rw [ClientOk, free] at ok
  exact ok

/-- A client that has a call waits for its reply, -/
theorem ClientOk.busy {w : Option (Pending Call (Option UInt64))} (ok : ClientOk tree σ n c w) {call : Call} {phase : Phase}
    (here : σ.calls (n, c) = some (call, phase)) : ∃ w' R, w = some w' ∧ Busy tree σ n c call phase w' R := by
  rw [ClientOk, here] at ok
  exact ok

/-- and the other way round. -/
theorem clientOk_of_busy {call : Call} {phase : Phase} (here : σ.calls (n, c) = some (call, phase)) {w : Pending Call (Option UInt64)} {R : Nat}
    (busy : Busy tree σ n c call phase w R) : ClientOk tree σ n c (some w) := by
  rw [ClientOk, here]
  exact ⟨w, R, rfl, busy⟩

/-- Until a call returns its client has no reply beyond its own. -/
theorem Busy.le_returned {call : Call} {phase : Phase} {w : Pending Call (Option UInt64)} {R : Nat} (busy : Busy tree σ n c call phase w R) :
    R ≤ (σ.rpc.returned n c 0).length := by
  cases phase with
  | sends => exact Nat.le_of_eq (busy.sends rfl).1.symm
  | waits =>
    rcases busy.waits rfl with waiting | done
    · exact Nat.le_of_eq waiting.returned.symm
    · rw [done.2]
      exact Nat.le_succ R

/-! ## The steps of a client -/

/-- A client whose call is at another one. -/
theorem differ_of_ne {n' c' : Nat} (other : (n', c') ≠ (n, c)) : Rpc.Agent.client n c ≠ .client n' c' := by
  intro same
  cases same
  exact other rfl

/-- A client that calls has sent one request more than it has replies. -/
theorem Ok.call (ok : Ok nn nc tree M σ es pend) (call : Call) (junk : UInt64) (pad : UInt32) (free : σ.calls (n, c) = none) :
    Ok nn nc tree M { σ.setCall (n, c) (some (call, .sends)) (σ.rpc.rpcSend n c 0 (call.msg tree junk pad).toBytes) with
      hist := σ.hist ++ [.call (n, c) call] } es (Function.update pend (n, c) (some ⟨σ.hist.length, call, none⟩)) := by
  obtain ⟨_, idle, even⟩ := (ok.clients n c).free free
  have bounds := lengths ok.rpc n c
  have next : Rpc.Step nn nc σ.rpc (.send n c 0 (call.msg tree junk pad).toBytes) (σ.rpc.rpcSend n c 0 (call.msg tree junk pad).toBytes) := by
    apply Rpc.Step.send idle
    · simp [sizeofRbtreeMsg]
    · simp [sizeofRbtreeMsg, Rpc.maxMsgSize]
    · simp only [Rpc.Sys.sent, Rpc.Sys.got, Rpc.getSendRing, Rpc.msgNum]
      omega
  have allow : AllSync σ.rpc (.send n c 0 (call.msg tree junk pad).toBytes) := by
    rintro n' c' rfl rfl _
    exact even
  refine ⟨.step ok.rpc allow next, ok.rep, ok.bound, ok.points.call (n, c) call, ok.legal, fun n' c' => ?_⟩
  by_cases same : (n', c') = (n, c)
  · obtain ⟨rfl, rfl⟩ := Prod.mk.inj same
    rw [Function.update_self]
    have requests : (σ.rpc.rpcSend n' c' 0 (call.msg tree junk pad).toBytes).requests n' c' 0 =
        σ.rpc.requests n' c' 0 ++ [(call.msg tree junk pad).toBytes] := Rpc.update_three_self
    refine clientOk_of_busy (show _ = some (call, Phase.sends) from Function.update_self ..) (R := (σ.rpc.requests n' c' 0).length)
      ⟨rfl, ?_, ?_, ?_, ?_, ?_, ?_⟩
    · refine ⟨junk, pad, ?_⟩
      simp only [Svc.setCall, requests]
      simp
    · simp only [Svc.setCall, requests]
      simp
    · intro _
      refine ⟨even.symm, fun q ptr r receiving => ?_⟩
      simp only [Svc.setCall, Rpc.Sys.rpcSend, Rpc.Sys.setThread, Function.update_self] at receiving
      cases receiving
    · intro waits
      cases waits
    · intro _
      change (labelled n' c' (σ.rpc.replied 0)).length = _
      omega
    · intro r res
      cases res
  · rw [Function.update_of_ne same]
    exact (ok.clients n' c').frame (Function.update_of_ne same ..) (next.sameClient (differ_of_ne same)) rfl

/-- A client that has sent its request goes on to wait for one reply. -/
theorem Ok.recv (ok : Ok nn nc tree M σ es pend) {call : Call} (here : σ.calls (n, c) = some (call, .sends))
    (idle : σ.rpc.threads (.client n c) = .idle) :
    Ok nn nc tree M (σ.setCall (n, c) (some (call, .waits)) (σ.rpc.rpcRecv n c 0 true)) es pend := by
  have next : Rpc.Step nn nc σ.rpc (.recv n c 0 true) (σ.rpc.rpcRecv n c 0 true) := .recv idle
  have allow : AllSync σ.rpc (.recv n c 0 true) := fun _ _ => trivial
  refine ⟨.step ok.rpc allow next, ok.rep, ok.bound, ok.points, ok.legal, fun n' c' => ?_⟩
  by_cases same : (n', c') = (n, c)
  · obtain ⟨rfl, rfl⟩ := Prod.mk.inj same
    obtain ⟨w, R, pending, busy⟩ := (ok.clients n' c').busy here
    rw [pending]
    refine clientOk_of_busy (show _ = some (call, Phase.waits) from Function.update_self ..) (R := R)
      ⟨busy.op, busy.request, busy.sent, ?_, ?_, busy.before, busy.after⟩
    · intro sends
      cases sends
    · intro _
      exact Or.inl ⟨⟨_, _, Function.update_self .., rfl⟩, busy.sent, (busy.sends rfl).1⟩
  · exact (ok.clients n' c').frame (Function.update_of_ne same ..) (next.sameClient (differ_of_ne same)) rfl

/-- **The reply that a client returns with** is the one for its own request. -/
theorem Ok.reply (ok : Ok nn nc tree M σ es pend) {call : Call} {msg : Msg} (here : σ.calls (n, c) = some (call, .waits))
    (idle : σ.rpc.threads (.client n c) = .idle) (last : (σ.rpc.returned n c 0).getLast? = some msg) :
    ∃ i v, pend (n, c) = some ⟨i, call, some (call.result (msgReply v))⟩ ∧ msg = (msgReply v).toBytes ∧
      (σ.rpc.requests n c 0).length = (σ.rpc.returned n c 0).length := by
  obtain ⟨⟨i, op, res⟩, R, pending, busy⟩ := (ok.clients n c).busy here
  obtain rfl : op = call := busy.op
  have bounds := lengths ok.rpc n c
  have returned : (σ.rpc.returned n c 0).length = R + 1 := by
    rcases busy.waits rfl with waiting | done
    · obtain ⟨ptr, r, receiving, _⟩ := waiting.spins
      rw [idle] at receiving
      cases receiving
    · exact done.2
  have sent := busy.sent
  cases res with
  | none =>
    have none := busy.before rfl
    omega
  | some r =>
    obtain ⟨v, reply, count, rfl⟩ := busy.after r rfl
    refine ⟨i, v, pending, ?_, by omega⟩
    have all : σ.rpc.returned n c 0 = labelled n c (σ.rpc.replied 0) := by
      apply (ok.rpc.prefixes 0 n c).2.eq_of_length
      rw [returned, count]
    rw [all, reply] at last
    exact (Option.some.inj last).symm

/-- A client that has its reply returns what the map gave for its call. -/
theorem Ok.ret (ok : Ok nn nc tree M σ es pend) {call : Call} {msg : Msg} (here : σ.calls (n, c) = some (call, .waits))
    (idle : σ.rpc.threads (.client n c) = .idle) (last : (σ.rpc.returned n c 0).getLast? = some msg) :
    Ok nn nc tree M { σ.setCall (n, c) none σ.rpc with hist := σ.hist ++ [.ret (n, c) (call.result (.ofBytes msg))] } es
      (Function.update pend (n, c) none) := by
  obtain ⟨i, v, pending, rfl, even⟩ := ok.reply here idle last
  rw [RbtreeMsg.ofBytes_toBytes]
  refine ⟨ok.rpc, ok.rep, ok.bound, ok.points.ret pending, ok.legal, fun n' c' => ?_⟩
  by_cases same : (n', c') = (n, c)
  · obtain ⟨rfl, rfl⟩ := Prod.mk.inj same
    rw [Function.update_self, ClientOk, show ({ σ.setCall (n', c') none σ.rpc with
      hist := σ.hist ++ [.ret (n', c') (call.result (msgReply v))] } : Svc).calls (n', c') = none from Function.update_self ..]
    exact ⟨rfl, idle, even⟩
  · rw [Function.update_of_ne same]
    exact (ok.clients n' c').frame (Function.update_of_ne same ..) ⟨rfl, rfl, rfl⟩ rfl

/-! ## The steps of the server -/

/-- The server polls only when it has answered all it got. -/
theorem Ok.poll (ok : Ok nn nc tree M σ es pend) (idle : σ.rpc.threads (.server 0) = .idle)
    (none : (σ.rpc.log 0).length = (σ.rpc.replied 0).length) : Ok nn nc tree M { σ with rpc := σ.rpc.rpcRecvServer 0 } es pend := by
  have next : Rpc.Step nn nc σ.rpc (.recvServer 0) (σ.rpc.rpcRecvServer 0) := .recvServer idle
  have allow : AllSync σ.rpc (.recvServer 0) := fun _ _ _ => none
  refine ⟨.step ok.rpc allow next, ok.rep, ok.bound, ok.points, ok.legal, fun n c => ?_⟩
  exact (ok.clients n c).frame rfl (next.sameClient (by simp [Rpc.Label.agent])) rfl

/-- **The request that the server has** is the one of a call that has not taken effect. -/
theorem Ok.request (ok : Ok nn nc tree M σ es pend) {nid cid : Nat} {front : List (Nat × Nat × Msg)} {req : Msg}
    (log : σ.rpc.log 0 = front ++ [(nid, cid, req)]) (due : front.length = (σ.rpc.replied 0).length) :
    ∃ call phase i R junk pad, σ.calls (nid, cid) = some (call, phase) ∧ pend (nid, cid) = some ⟨i, call, none⟩ ∧
      Busy tree σ nid cid call phase ⟨i, call, none⟩ R ∧ req = (call.msg tree junk pad).toBytes := by
  have bounds := lengths ok.rpc nid cid
  have more := owed ok.rpc log due
  cases here : σ.calls (nid, cid) with
  | none =>
    have free := ((ok.clients nid cid).free here).2.2
    omega
  | some p =>
    obtain ⟨call, phase⟩ := p
    obtain ⟨⟨i, op, res⟩, R, pending, busy⟩ := (ok.clients nid cid).busy here
    obtain rfl : op = call := busy.op
    have sent := busy.sent
    cases res with
    | some r =>
      obtain ⟨_, _, count, _⟩ := busy.after r rfl
      omega
    | none =>
      have count := busy.before rfl
      obtain ⟨junk, pad, request⟩ := busy.request
      refine ⟨op, phase, i, R, junk, pad, rfl, pending, busy, ?_⟩
      have all : labelled nid cid (σ.rpc.log 0) = σ.rpc.requests nid cid 0 := by
        apply (ok.rpc.prefixes 0 nid cid).1.eq_of_length
        omega
      rw [← all, log, Rpc.labelled_append, Rpc.labelled_self] at request
      rw [log, Rpc.labelled_append, Rpc.labelled_self, List.length_append, List.length_singleton] at more
      have place : (labelled nid cid front).length = R := by omega
      rw [← place, List.getElem?_concat_length] at request
      exact Option.some.inj request

/-- A call adds one pair at most. -/
theorem spec_length_le (M : List Kv) (call : Call) : (spec M call).1.length ≤ M.length + 1 := by
  cases call with
  | insert key value => exact Op.ref_length_le M (.insert key.toNat value.toNat)
  | erase key => exact Op.ref_length_le M (.delete key.toNat)

/-- **The handler** is where a call takes effect. -/
theorem Ok.handle (deep : maxNodes ≤ fuel) (ok : Ok nn nc tree M σ es pend) {nid cid : Nat} {front : List (Nat × Nat × Msg)} {req reply : Msg}
    {cells : Nat → Addr} {mem : Mem} {value : UInt64} (idle : σ.rpc.threads (.server 0) = .idle)
    (log : σ.rpc.log 0 = front ++ [(nid, cid, req)]) (due : front.length = (σ.rpc.replied 0).length) (fresh : Fresh cells σ.mem)
    (small : heapSize σ.mem.heap σ.mem.root + 1 < maxNodes)
    (run : rbtreeMsgHandler fuel cells tree σ.mem σ.value req = some (mem, value, reply)) :
    ∃ es' pend', Ok nn nc tree M { σ with rpc := σ.rpc.rpcSendServer 0 nid cid reply, mem := mem, value := value } es' pend' := by
  obtain ⟨call, phase, i, R, junk, pad, here, pending, busy, rfl⟩ := ok.request log due
  obtain ⟨t, rep⟩ := ok.rep
  have room := Represents.length_lt rep ok.bound small
  obtain ⟨m', v, t', run', rep', result⟩ := handler_call tree σ.value rep deep room fresh call junk pad
  obtain ⟨rfl, rfl, rfl⟩ : mem = m' ∧ value = v ∧ reply = (msgReply v).toBytes := by
    simpa using run.symm.trans run'
  have bounds := lengths ok.rpc nid cid
  have count := busy.before rfl
  have sent := busy.sent
  have next : Rpc.Step nn nc σ.rpc (.sendServer 0 nid cid (msgReply value).toBytes) (σ.rpc.rpcSendServer 0 nid cid (msgReply value).toBytes) := by
    apply Rpc.Step.sendServer idle
    · simp [sizeofRbtreeMsg]
    · simp [sizeofRbtreeMsg, Rpc.maxMsgSize]
    · simp only [Rpc.Sys.sent, Rpc.Sys.got, Rpc.getSendRingServer, Rpc.msgNum]
      have got := busy.le_returned
      omega
  have allow : AllSync σ.rpc (.sendServer 0 nid cid (msgReply value).toBytes) := fun _ _ _ => ⟨front, _, log, due⟩
  have replied : (σ.rpc.rpcSendServer 0 nid cid (msgReply value).toBytes).replied 0 =
      σ.rpc.replied 0 ++ [(nid, cid, (msgReply value).toBytes)] := by simp [Rpc.Sys.rpcSendServer]
  refine ⟨_, _, .step ok.rpc allow next, ?_, ?_, ok.points.point pending (spec (after spec M es) call).2, ?_, fun n' c' => ?_⟩
  · rw [after_append]
    exact ⟨t', rep'⟩
  · rw [after_append]
    have grown := spec_length_le (after spec M es) call
    exact Nat.lt_of_le_of_lt grown room
  · exact legal_append.mpr ⟨ok.legal, rfl⟩
  · by_cases same : (n', c') = (nid, cid)
    · obtain ⟨rfl, rfl⟩ := Prod.mk.inj same
      rw [Function.update_self]
      have same := next.sameClient (n := n') (c := c') (by simp [Rpc.Label.agent])
      refine clientOk_of_busy (σ := { σ with rpc := σ.rpc.rpcSendServer 0 n' c' (msgReply value).toBytes, mem := mem, value := value })
        (w := ⟨i, call, some (spec (after spec M es) call).2⟩) here (R := R) ⟨rfl, busy.request, busy.sent, ?_, ?_, ?_, ?_⟩
      · rw [same.thread]
        exact busy.sends
      · intro waits
        rw [same.thread]
        refine (busy.waits waits).imp_left fun waiting => ⟨?_, waiting.requests, waiting.returned⟩
        rw [same.thread]
        exact waiting.spins
      · intro res
        cases res
      · intro r res
        cases res
        simp only [replied, Rpc.labelled_append, Rpc.labelled_self]
        exact ⟨value, by simp, by simp [count], result⟩
    · rw [Function.update_of_ne same]
      refine (ok.clients n' c').frame rfl (next.sameClient (by simp [Rpc.Label.agent])) ?_
      simp only [replied, Rpc.labelled_append]
      rw [Rpc.labelled_other, List.append_nil]
      rintro ⟨rfl, rfl⟩
      exact same rfl

/-! ## The steps within a call -/

/-- A step within a call replies to no request. -/
theorem micro_replied {a : Rpc.Agent} {ρ ρ' : Rpc.Sys} (next : Rpc.Step nn nc ρ (.micro a) ρ') : ρ'.replied = ρ.replied := by
  cases next with
  | sends => rfl
  | sent => rfl
  | receives => rfl
  | returns => cases a <;> rfl

/-- It is of a core that is in a call. -/
theorem micro_active {a : Rpc.Agent} {ρ ρ' : Rpc.Sys} (next : Rpc.Step nn nc ρ (.micro a) ρ') : ρ.threads a ≠ .idle := by
  cases next with
  | sends active => simp [active]
  | sent active => simp [active]
  | receives active => simp [active]
  | returns active => simp [active]

/-- A client that sends goes on to send. -/
theorem micro_sends {ρ ρ' : Rpc.Sys} (next : Rpc.Step nn nc ρ (.micro (.client n c)) ρ')
    (sends : ∀ q ptr r, ρ.threads (.client n c) ≠ .receiving q ptr r) :
    ρ'.requests = ρ.requests ∧ ρ'.returned = ρ.returned ∧ ∀ q ptr r, ρ'.threads (.client n c) ≠ .receiving q ptr r := by
  cases next with
  | sends => exact ⟨rfl, rfl, fun q ptr r => by simp [Rpc.Sys.setThread]⟩
  | sent => exact ⟨rfl, rfl, fun q ptr r => by simp [Rpc.Sys.setThread]⟩
  | receives active => exact absurd active (sends _ _ _)
  | returns active => exact absurd active (sends _ _ _)

/-- A client that waits goes on to wait, or has its reply. -/
theorem micro_waits {ρ ρ' : Rpc.Sys} {R : Nat} (ok : Rpc.SysOk ρ) (next : Rpc.Step nn nc ρ (.micro (.client n c)) ρ')
    (waiting : Rpc.Waiting 0 n c R ρ) :
    Rpc.Waiting 0 n c R ρ' ∨ ρ'.threads (.client n c) = .idle ∧ (ρ'.returned n c 0).length = R + 1 := by
  rcases waiting.step ok next with still | served
  · exact Or.inl still
  · refine Or.inr ⟨?_, served.returned⟩
    obtain ⟨_, _, active, _⟩ := waiting.spins
    cases next with
    | sends was => cases was.symm.trans active
    | sent was => cases was.symm.trans active
    | receives was =>
      have same : (ρ.returned n c 0).length = R + 1 := served.returned
      rw [waiting.returned] at same
      omega
    | returns => exact Function.update_self ..

/-- It brings the server no request. -/
theorem micro_requests {a : Rpc.Agent} {ρ ρ' : Rpc.Sys} (next : Rpc.Step nn nc ρ (.micro a) ρ') : ρ'.requests = ρ.requests := by
  cases next with
  | sends => rfl
  | sent => rfl
  | receives => rfl
  | returns => cases a <;> rfl

/-- A client's own step within `rpc_send` or `rpc_recv`. -/
theorem Busy.micro {call : Call} {phase : Phase} {w : Pending Call (Option UInt64)} {R : Nat} (busy : Busy tree σ n c call phase w R)
    (ok : Rpc.SysOk σ.rpc) {rpc : Rpc.Sys} (next : Rpc.Step nn nc σ.rpc (.micro (.client n c)) rpc) :
    Busy tree { σ with rpc := rpc } n c call phase w R := by
  have replied := micro_replied next
  have requests := micro_requests next
  refine ⟨busy.op, ?_, ?_, fun sends => ?_, fun waits => ?_, ?_, ?_⟩
  · rw [requests]
    exact busy.request
  · rw [requests]
    exact busy.sent
  · obtain ⟨count, sending⟩ := busy.sends sends
    obtain ⟨_, returned, still⟩ := micro_sends next sending
    refine ⟨?_, still⟩
    rw [returned]
    exact count
  · rcases busy.waits waits with waiting | done
    · exact micro_waits ok next waiting
    · exact absurd done.1 (micro_active next)
  · rw [replied]
    exact busy.before
  · rw [replied]
    exact busy.after

/-- A step within a call changes no request and no reply of the server. -/
theorem Ok.micro (ok : Ok nn nc tree M σ es pend) {a : Rpc.Agent} {rpc : Rpc.Sys} (next : Rpc.Step nn nc σ.rpc (.micro a) rpc) :
    Ok nn nc tree M { σ with rpc := rpc } es pend := by
  have allow : AllSync σ.rpc (.micro a) := fun _ _ => trivial
  refine ⟨.step ok.rpc allow next, ok.rep, ok.bound, ok.points, ok.legal, fun n c => ?_⟩
  by_cases own : a = .client n c
  · subst own
    cases here : σ.calls (n, c) with
    | none => exact absurd ((ok.clients n c).free here).2.1 (micro_active next)
    | some p =>
      obtain ⟨call, phase⟩ := p
      obtain ⟨w, R, pending, busy⟩ := (ok.clients n c).busy here
      rw [pending]
      exact clientOk_of_busy (σ := { σ with rpc := rpc }) here (busy.micro ok.rpc.ok next)
  · exact (ok.clients n c).frame rfl (next.sameClient own) (by rw [micro_replied next])

/-! ## Every run -/

/-- Each step of the service keeps the calls, what took effect and the tree in agreement. -/
theorem Ok.step (deep : maxNodes ≤ fuel) (ok : Ok nn nc tree M σ es pend) (next : Step nn nc fuel tree σ σ') :
    ∃ es' pend', Ok nn nc tree M σ' es' pend' := by
  cases next with
  | call call junk pad free => exact ⟨_, _, ok.call call junk pad free⟩
  | recv here idle => exact ⟨_, _, ok.recv here idle⟩
  | ret here idle last => exact ⟨_, _, ok.ret here idle last⟩
  | poll idle none => exact ⟨_, _, ok.poll idle none⟩
  | handle idle log due fresh small run => exact ok.handle deep idle log due fresh small run
  | micro next => exact ⟨_, _, ok.micro next⟩

/-- So it is in every run. -/
theorem Run.ok (deep : maxNodes ≤ fuel) (run : Run nn nc fuel tree M σ) : ∃ es pend, Ok nn nc tree M σ es pend := by
  induction run with
  | init rings unused start =>
    obtain ⟨bound, rep⟩ := start.represents deep
    exact ⟨[], fun _ => none, .init rings unused, rep, bound, Points.start, trivial, fun n c => ⟨rfl, rfl, rfl⟩⟩
  | step _ next ih =>
    obtain ⟨es, pend, ok⟩ := ih
    exact ok.step deep next

end

/-! ## Calls that return -/

/-- What the steps within a call leave: everything but the ring and the core's own thread. -/
structure Within (a : Rpc.Agent) (ρ ρ' : Rpc.Sys) : Prop where
  requests : ρ'.requests = ρ.requests
  returned : ρ'.returned = ρ.returned
  replied : ρ'.replied = ρ.replied
  log : ρ'.log = ρ.log
  svrNode : ρ'.svrNode = ρ.svrNode
  svrCore : ρ'.svrCore = ρ.svrCore
  threads : ∀ b, b ≠ a → ρ'.threads b = ρ.threads b

section
variable {nn nc fuel : Nat} {tree : UInt64} {M M' : List Kv} {σ : Svc} {a : Rpc.Agent} {ρ ρ' ρ'' : Rpc.Sys}

theorem Within.trans (first : Within a ρ ρ') (second : Within a ρ' ρ'') : Within a ρ ρ'' where
  requests := second.requests.trans first.requests
  returned := second.returned.trans first.returned
  replied := second.replied.trans first.replied
  log := second.log.trans first.log
  svrNode := second.svrNode.trans first.svrNode
  svrCore := second.svrCore.trans first.svrCore
  threads := fun b other => (second.threads b other).trans (first.threads b other)

/-- One access to a slot. -/
theorem Within.slot (ρ : Rpc.Sys) (a : Rpc.Agent) (q : Rpc.Ring) (cur : Nat) (slot : Rpc.MsgNode) (ptr : Rpc.PosPtr) (pos : Nat)
    (t : Rpc.Thread) : Within a ρ ((ρ.setSlot q cur slot ptr pos).setThread a t) :=
  ⟨rfl, rfl, rfl, rfl, rfl, rfl, fun _ other => Function.update_of_ne other _ _⟩

/-- A core that sends can finish its call. -/
theorem Run.sending_ends (run : Run nn nc fuel tree M σ) {q : Rpc.Ring} {ptr : Rpc.PosPtr} {s : Rpc.Sending}
    (active : σ.rpc.threads a = .sending q ptr s) :
    ∃ ρ, Run nn nc fuel tree M { σ with rpc := ρ } ∧ ρ.threads a = .idle ∧ Within a σ.rpc ρ := by
  generalize measure : s.left = steps
  induction steps using Nat.strong_induction_on generalizing σ s with
  | _ steps ih =>
    rcases step : Rpc.rpcSendExt (σ.rpc.rings q s.cur) (σ.rpc.pos ptr) s with ⟨slot, pos, s'⟩
    cases s' with
    | none => exact ⟨_, run.step (.micro (.sent active step)), Function.update_self _ _ _, .slot _ _ _ _ _ _ _ _⟩
    | some s' =>
      have less := (Rpc.rpcSendExt_left step).1
      obtain ⟨ρ, run', idle, within⟩ :=
        ih s'.left (by omega) (run.step (.micro (.sends active step))) (Function.update_self _ _ _) rfl
      exact ⟨ρ, run', idle, .trans (.slot _ _ _ _ _ _ _ _) within⟩

/-- A core that receives can finish its call, if there is a message to read. -/
theorem Run.receiving_ends (deep : maxNodes ≤ fuel) (run : Run nn nc fuel tree M σ) {q : Rpc.Ring} {ptr : Rpc.PosPtr} {r : Rpc.Receiving}
    (active : σ.rpc.threads a = .receiving q ptr r) (idle : σ.rpc.threads q.sender = .idle)
    (unread : (σ.rpc.got q).length < (σ.rpc.sent q).length) :
    ∃ ρ msg, Run nn nc fuel tree M { σ with rpc := ρ.returns nn nc q msg a } ∧ msg ≠ [] ∧ Within a σ.rpc ρ := by
  generalize measure : r.left = steps
  induction steps using Nat.strong_induction_on generalizing σ r with
  | _ steps ih =>
    obtain ⟨_, _, inv⟩ := run.ok deep
    have ok := inv.rpc.ok
    have there : (σ.rpc.got q).length < (σ.rpc.chan q).published := by
      rw [Rpc.Chan.published, Rpc.Sys.chan, idle]
      exact unread
    obtain ⟨fits, ends, _⟩ := ok.receiving_fits active
    have found := ok.finds active there
    rcases step : Rpc.rpcRecvExt (σ.rpc.rings q r.cur) (σ.rpc.pos ptr) r with ⟨slot, pos, r' | msg⟩
    · have less := (Rpc.rpcRecvExt_left step (fun look => Or.inl (found look)) fits fun last => (ends last).1).1
      have mine := (ok.receiving_chan active).1
      have within : Within a σ.rpc ((σ.rpc.setSlot q r.cur slot ptr pos).setThread a (.receiving q ptr r')) := .slot _ _ _ _ _ _ _ _
      have idle' := (within.threads q.sender fun same => q.sender_ne_receiver (same.trans mine.symm)).trans idle
      obtain ⟨ρ, msg, run', some, within'⟩ :=
        ih r'.left (by omega) (run.step (.micro (.receives active step))) (Function.update_self _ _ _) idle' unread rfl
      exact ⟨ρ, msg, run', some, within.trans within'⟩
    · exact ⟨_, msg, run.step (.micro (.returns active step)), ok.returns_message active step fun look => Or.inl (found look),
        ⟨rfl, rfl, rfl, rfl, rfl, rfl, fun _ _ => rfl⟩⟩

/-- What the rings have carried, and where the server of node 0 polls. -/
structure Traffic where
  requests : Nat → Nat → List Msg
  returned : Nat → Nat → List Msg
  replied : List (Nat × Nat × Msg)
  log : List (Nat × Nat × Msg)
  turn : Nat × Nat

/-- The traffic of a state. -/
def traffic (ρ : Rpc.Sys) : Traffic :=
  ⟨fun n c => ρ.requests n c 0, fun n c => ρ.returned n c 0, ρ.replied 0, ρ.log 0, (ρ.svrNode 0, ρ.svrCore 0)⟩

/-- Such steps carry nothing. -/
theorem Within.traffic_eq (within : Within a ρ ρ') : traffic ρ' = traffic ρ := by
  simp only [traffic, within.requests, within.returned, within.replied, within.log, within.svrNode, within.svrCore]

/-- A state that a run reaches with no core inside a function of the rings. -/
def Rests (nn nc fuel : Nat) (tree : UInt64) (M : List Kv) (m : Mem) (v : UInt64) (calls : Nat × Nat → Option (Call × Phase))
    (hist : List (Event (Nat × Nat) Call (Option UInt64))) (t : Traffic) : Prop :=
  ∃ ρ, Run nn nc fuel tree M ⟨ρ, m, v, calls, hist⟩ ∧ (∀ a, ρ.threads a = .idle) ∧ traffic ρ = t

variable {m : Mem} {v : UInt64} {calls : Nat × Nat → Option (Call × Phase)} {hist : List (Event (Nat × Nat) Call (Option UInt64))} {t : Traffic}
  {n c : Nat}

/-- The core that has finished its call is idle again, and so are the others. -/
theorem idle_after {ρ ρ' : Rpc.Sys} (still : ∀ b, b ≠ a → ρ.threads b = .idle) (idle : ρ'.threads a = .idle)
    (within : Within a ρ ρ') (b : Rpc.Agent) :
    ρ'.threads b = .idle := by
  by_cases same : b = a
  · rw [same]
    exact idle
  · rw [within.threads b same]
    exact still b same

/-- A client calls, and has sent its request. -/
theorem Rests.call (rests : Rests nn nc fuel tree M m v calls hist t) (call : Call) (free : calls (n, c) = none) :
    Rests nn nc fuel tree M m v (Function.update calls (n, c) (some (call, .sends))) (hist ++ [.call (n, c) call])
      { t with requests := Function.update t.requests n (Function.update (t.requests n) c
          (t.requests n c ++ [(call.msg tree 0 0).toBytes])) } := by
  obtain ⟨ρ, run, still, rfl⟩ := rests
  have begun := run.step (.call call 0 0 free)
  obtain ⟨ρ', run', idle, within⟩ := begun.sending_ends (a := .client n c) (Function.update_self _ _ _)
  refine ⟨ρ', run', idle_after (fun b other => ?_) idle within, within.traffic_eq.trans ?_⟩
  · exact (Function.update_of_ne other _ _).trans (still b)
  · simp only [traffic, Svc.setCall, Rpc.Sys.rpcSend, Rpc.Sys.setThread, Traffic.mk.injEq, and_true]
    funext n' c'
    by_cases node : n' = n
    · subst node
      by_cases core : c' = c
      · subst core
        simp
      · simp [core]
    · simp [node]

/-- The server sends on the ring of its client. -/
theorem rpcSendServer_thread (ρ : Rpc.Sys) (srv nid cid : Nat) (msg : Msg) : (ρ.rpcSendServer srv nid cid msg).threads (.server srv) =
    .sending (Rpc.getSendRingServer srv nid cid) ⟨srv, .rcvHead, nid, cid⟩ (Rpc.rpcSendBegin (ρ.pos ⟨srv, .rcvHead, nid, cid⟩) msg) := by
  simp [Rpc.Sys.rpcSendServer, Rpc.Sys.setThread]

/-- The server polls the ring of a client that has sent a request, and handles it. -/
theorem Rests.serve (deep : maxNodes ≤ fuel) (rests : Rests nn nc fuel tree M m v calls hist t) (call : Call) (front : List Msg)
    (even : t.log.length = t.replied.length) (turn : t.turn = (n, c)) (request : t.requests n c = front ++ [(call.msg tree 0 0).toBytes])
    (served : labelled n c t.log = front) {nodes : Tree} (rep : Represents m nodes M') (small : M'.length + 1 < maxNodes) :
    ∃ m' v' nodes', Represents m' nodes' (spec M' call).1 ∧ call.result (msgReply v') = (spec M' call).2 ∧
      Rests nn nc fuel tree M m' v' calls hist { t with
        replied := t.replied ++ [(n, c, (msgReply v').toBytes)]
        log := t.log ++ [(n, c, (call.msg tree 0 0).toBytes)]
        turn := Rpc.advanceRecvId nn nc (n, c) } := by
  obtain ⟨ρ, run, still, rfl⟩ := rests
  obtain ⟨rfl, rfl⟩ := Prod.mk.inj turn
  simp only [traffic] at even request served
  have begun : Run nn nc fuel tree M ⟨ρ.rpcRecvServer 0, m, v, calls, hist⟩ := run.step (.poll (still _) even)
  -- the request is the only message that is not read
  generalize ring : Rpc.getRecvRingServer 0 (ρ.svrNode 0) (ρ.svrCore 0) = q at *
  have active : (ρ.rpcRecvServer 0).threads (.server 0) =
      .receiving q ⟨0, .sntTail, ρ.svrNode 0, ρ.svrCore 0⟩ (Rpc.rpcRecvBegin (ρ.pos ⟨0, .sntTail, ρ.svrNode 0, ρ.svrCore 0⟩) false) := by
    simp [Rpc.Sys.rpcRecvServer, Rpc.Sys.setThread, ring]
  have sender : (ρ.rpcRecvServer 0).threads q.sender = .idle := by
    rw [← ring]
    simp [Rpc.Ring.sender, Rpc.getRecvRingServer, Rpc.Sys.rpcRecvServer, Rpc.Sys.setThread, still]
  have unread : ((ρ.rpcRecvServer 0).got q).length < ((ρ.rpcRecvServer 0).sent q).length := by
    rw [← ring]
    change (labelled (ρ.svrNode 0) (ρ.svrCore 0) (ρ.log 0)).length < (ρ.requests (ρ.svrNode 0) (ρ.svrCore 0) 0).length
    rw [request, served]
    simp
  obtain ⟨ρ₁, msg, run₁, nonempty, within₁⟩ := begun.receiving_ends deep active sender unread
  have log₁ : (ρ₁.recvServerReturns nn nc 0 msg).log 0 = ρ.log 0 ++ [(ρ.svrNode 0, ρ.svrCore 0, msg)] := by
    simp only [Rpc.Sys.recvServerReturns, Function.update_self, if_neg nonempty, within₁.log, within₁.svrNode, within₁.svrCore]
    rfl
  obtain rfl : msg = (call.msg tree 0 0).toBytes := by
    obtain ⟨_, _, inv⟩ := run₁.ok deep
    have asked := (inv.rpc.prefixes 0 (ρ.svrNode 0) (ρ.svrCore 0)).1
    change labelled _ _ ((ρ₁.recvServerReturns nn nc 0 msg).log 0) <+: ρ₁.requests (ρ.svrNode 0) (ρ.svrCore 0) 0 at asked
    rw [log₁, within₁.requests, Rpc.labelled_append, Rpc.labelled_self, served] at asked
    change front ++ [msg] <+: ρ.requests (ρ.svrNode 0) (ρ.svrCore 0) 0 at asked
    rw [request] at asked
    have whole := asked.eq_of_length (by simp)
    simpa using whole
  -- the handler
  obtain ⟨top, below⟩ := exists_above (addrs nodes)
  have fresh : Fresh (top + ·) m := fresh_above rep.holds.shape rep.root below
  have size : heapSize m.heap m.root + 1 < maxNodes := by
    rw [← rep.root, heapSize_ptr rep.holds (by rw [rep.size]; simp only [maxNodes, sizeLimit] at small ⊢; omega), rep.size]
    exact_mod_cast small
  obtain ⟨m', v', nodes', handled, rep', result⟩ := handler_call tree v rep deep small fresh call 0 0
  have idle₁ : (ρ₁.recvServerReturns nn nc 0 (call.msg tree 0 0).toBytes).threads (.server 0) = .idle := by
    simp [Rpc.Sys.recvServerReturns, Rpc.Sys.setThread]
  have replied₁ : ρ₁.replied = ρ.replied := within₁.replied
  have due : (ρ.log 0).length = ((ρ₁.recvServerReturns nn nc 0 (call.msg tree 0 0).toBytes).replied 0).length := by
    rw [even]
    exact congrArg (fun f => (f 0).length) replied₁.symm
  have next : Run nn nc fuel tree M ⟨(ρ₁.recvServerReturns nn nc 0 (call.msg tree 0 0).toBytes).rpcSendServer 0 (ρ.svrNode 0) (ρ.svrCore 0)
      (msgReply v').toBytes, m', v', calls, hist⟩ := run₁.step (.handle idle₁ log₁ due fresh size handled)
  have active₂ : ((ρ₁.recvServerReturns nn nc 0 (call.msg tree 0 0).toBytes).rpcSendServer 0 (ρ.svrNode 0) (ρ.svrCore 0)
      (msgReply v').toBytes).threads (.server 0) = .sending (Rpc.getSendRingServer 0 (ρ.svrNode 0) (ρ.svrCore 0))
        ⟨0, .rcvHead, ρ.svrNode 0, ρ.svrCore 0⟩ (Rpc.rpcSendBegin ((ρ₁.recvServerReturns nn nc 0 (call.msg tree 0 0).toBytes).pos
          ⟨0, .rcvHead, ρ.svrNode 0, ρ.svrCore 0⟩) (msgReply v').toBytes) := rpcSendServer_thread _ _ _ _ _
  obtain ⟨ρ₂, run₂, idle₂, within₂⟩ := next.sending_ends active₂
  refine ⟨m', v', nodes', rep', result, ρ₂, run₂, idle_after (fun b other => ?_) idle₂ within₂, within₂.traffic_eq.trans ?_⟩
  · have same : ρ₁.threads b = ρ.threads b := by
      rw [within₁.threads b other]
      simp [Rpc.Sys.rpcRecvServer, Rpc.Sys.setThread, other]
    simp [Rpc.Sys.rpcSendServer, Rpc.Sys.recvServerReturns, Rpc.Sys.setThread, other, same, still]
  · have log : ρ₁.log = ρ.log := within₁.log
    have node : ρ₁.svrNode = ρ.svrNode := within₁.svrNode
    have core : ρ₁.svrCore = ρ.svrCore := within₁.svrCore
    have asked : ρ₁.requests = ρ.requests := within₁.requests
    have answered : ρ₁.returned = ρ.returned := within₁.returned
    simp [traffic, Rpc.Sys.rpcSendServer, Rpc.Sys.recvServerReturns, Rpc.Sys.setThread, log, node, core, asked, answered, replied₁, nonempty]

/-- A client that has sent its request waits for the reply, and returns. -/
theorem Rests.ret (deep : maxNodes ≤ fuel) (rests : Rests nn nc fuel tree M m v calls hist t) (call : Call) (reply : Msg)
    (here : calls (n, c) = some (call, .sends)) (replied : labelled n c t.replied = t.returned n c ++ [reply]) :
    Rests nn nc fuel tree M m v (Function.update calls (n, c) none) (hist ++ [.ret (n, c) (call.result (.ofBytes reply))])
      { t with returned := Function.update t.returned n (Function.update (t.returned n) c (t.returned n c ++ [reply])) } := by
  obtain ⟨ρ, run, still, rfl⟩ := rests
  simp only [traffic] at replied
  have begun : Run nn nc fuel tree M ⟨ρ.rpcRecv n c 0 true, m, v, Function.update calls (n, c) (some (call, .waits)), hist⟩ :=
    run.step (.recv here (still _))
  have active : (ρ.rpcRecv n c 0 true).threads (.client n c) =
      .receiving (Rpc.getRecvRing n c 0) ⟨n, .rcvTail, 0, c⟩ (Rpc.rpcRecvBegin (ρ.pos ⟨n, .rcvTail, 0, c⟩) true) := by
    simp [Rpc.Sys.rpcRecv, Rpc.Sys.setThread]
  have sender : (ρ.rpcRecv n c 0 true).threads (Rpc.getRecvRing n c 0).sender = .idle := by
    simp [Rpc.Ring.sender, Rpc.getRecvRing, Rpc.Sys.rpcRecv, Rpc.Sys.setThread, still]
  have unread : ((ρ.rpcRecv n c 0 true).got (Rpc.getRecvRing n c 0)).length < ((ρ.rpcRecv n c 0 true).sent (Rpc.getRecvRing n c 0)).length := by
    change (ρ.returned n c 0).length < (labelled n c (ρ.replied 0)).length
    rw [replied]
    simp
  obtain ⟨ρ₁, msg, run₁, nonempty, within₁⟩ := begun.receiving_ends deep active sender unread
  have returned₁ : (ρ₁.recvReturns n c 0 msg).returned n c 0 = ρ.returned n c 0 ++ [msg] := by
    have same : ρ₁.returned = ρ.returned := within₁.returned
    simp [Rpc.Sys.recvReturns, nonempty, same]
  obtain rfl : msg = reply := by
    obtain ⟨_, _, inv⟩ := run₁.ok deep
    have got := (inv.rpc.prefixes 0 n c).2
    change (ρ₁.recvReturns n c 0 msg).returned n c 0 <+: labelled n c (ρ₁.replied 0) at got
    rw [returned₁, within₁.replied] at got
    change _ <+: labelled n c (ρ.replied 0) at got
    rw [replied] at got
    have whole := got.eq_of_length (by simp)
    simpa using whole
  have idle₁ : (ρ₁.recvReturns n c 0 msg).threads (.client n c) = .idle := by
    simp [Rpc.Sys.recvReturns, Rpc.Sys.setThread]
  have last : ((ρ₁.recvReturns n c 0 msg).returned n c 0).getLast? = some msg := by
    rw [returned₁]
    simp
  have received : Run nn nc fuel tree M ⟨ρ₁.recvReturns n c 0 msg, m, v, Function.update calls (n, c) (some (call, .waits)), hist⟩ := run₁
  have next := received.step (.ret (Function.update_self _ _ _) idle₁ last)
  refine ⟨ρ₁.recvReturns n c 0 msg, ?_, fun b => ?_, ?_⟩
  · simpa [Svc.setCall] using next
  · by_cases same : b = .client n c
    · rw [same]
      exact idle₁
    · have old : ρ₁.threads b = ρ.threads b := by
        rw [within₁.threads b same]
        simp [Rpc.Sys.rpcRecv, Rpc.Sys.setThread, same]
      simp [Rpc.Sys.recvReturns, Rpc.Sys.setThread, same, old, still]
  · have log : ρ₁.log = ρ.log := within₁.log
    have node : ρ₁.svrNode = ρ.svrNode := within₁.svrNode
    have core : ρ₁.svrCore = ρ.svrCore := within₁.svrCore
    have asked : ρ₁.requests = ρ.requests := within₁.requests
    have answered : ρ₁.returned = ρ.returned := within₁.returned
    have done : ρ₁.replied = ρ.replied := within₁.replied
    simp only [traffic, Rpc.Sys.recvReturns, Rpc.Sys.setThread, log, node, core, asked, answered, done, if_neg nonempty, Traffic.mk.injEq,
      and_true, true_and]
    funext n' c'
    by_cases node : n' = n
    · subst node
      by_cases core : c' = c
      · subst core
        simp
      · simp [core]
    · simp [node]

end

/-- An empty tree, with no call yet. -/
theorem rests_empty (nn nc : Nat) (tree : UInt64) :
    Rests nn nc maxNodes tree [] emptyTree 0 (fun _ => none) [] ⟨fun _ _ => [], fun _ _ => [], [], [], (0, 0)⟩ :=
  ⟨⟨fun _ _ => ⟨0, 0, fun _ => 0⟩, fun _ => 0, fun _ => 0, fun _ => 0, fun _ => .idle, fun _ _ _ => [], fun _ _ _ => [], fun _ => [],
    fun _ => []⟩, .init _ (fun _ _ => rfl) .empty, fun _ => rfl, rfl⟩

/-- While one core inserts a pair another one deletes its key. Both requests are sent before the server polls, both calls are handled,
and both return. -/
theorem exists_two_calls : ∃ σ, Run 4 18 maxNodes 64 [] σ ∧
    σ.hist = [.call (0, 0) (.insert 5 7), .call (0, 1) (.erase 5), .ret (0, 0) none, .ret (0, 1) (some 7)] := by
  have inserting := (rests_empty 4 18 64).call (n := 0) (c := 0) (.insert 5 7) rfl
  have erasing := inserting.call (n := 0) (c := 1) (.erase 5) rfl
  have empty : Represents emptyTree .nil [] := ⟨trivial, rfl, .nil, .nil, .nil⟩
  obtain ⟨m₁, v₁, t₁, rep₁, _, inserted⟩ :=
    erasing.serve (n := 0) (c := 0) (Nat.le_refl _) (.insert 5 7) [] rfl rfl rfl rfl empty (by decide)
  have pair : (spec [] (.insert 5 7)).1 = [⟨5, 7⟩] := by simp [spec, Op.ref]
  rw [pair] at rep₁
  have turn : Rpc.advanceRecvId 4 18 (0, 0) = (0, 1) := rfl
  obtain ⟨m₂, v₂, t₂, _, value, erased⟩ :=
    inserted.serve (n := 0) (c := 1) (Nat.le_refl _) (.erase 5) [] (by simp) turn (by simp) (by simp [labelled]) rep₁ (by simp [maxNodes])
  have found : (spec [⟨5, 7⟩] (.erase 5)).2 = some 7 := by simp [spec]
  rw [found] at value
  have first := erased.ret (n := 0) (c := 0) (Nat.le_refl _) (.insert 5 7) (msgReply v₁).toBytes (by simp) (by simp [labelled])
  obtain ⟨ρ, run, _⟩ := first.ret (n := 0) (c := 1) (Nat.le_refl _) (.erase 5) (msgReply v₂).toBytes (by simp) (by simp [labelled])
  refine ⟨_, run, ?_⟩
  rw [RbtreeMsg.ofBytes_toBytes, RbtreeMsg.ofBytes_toBytes, value]
  rfl

/-! ## The calls of every run -/

/-- **The tree behind the server is a linearizable map.** In every run, whatever the order of the steps of clients and server,
the calls and returns of `cb_insert` and `cb_erase` are those of a map that serves the calls one after another; the handler
never fails an assertion; and neither does a client that has its reply. -/
theorem tree_service_linearizable (nn nc fuel : Nat) (tree : UInt64) (M : List Kv) (deep : maxNodes ≤ fuel) (σ : Svc)
    (run : Run nn nc fuel tree M σ) :
    Linearizable spec M σ.hist ∧
    (∀ front nid cid req cells, σ.rpc.log 0 = front ++ [(nid, cid, req)] → front.length = (σ.rpc.replied 0).length → Fresh cells σ.mem →
      heapSize σ.mem.heap σ.mem.root + 1 < maxNodes → ∃ out, rbtreeMsgHandler fuel cells tree σ.mem σ.value req = some out) ∧
    ∀ n c call msg, σ.calls (n, c) = some (call, .waits) → σ.rpc.threads (.client n c) = .idle →
      (σ.rpc.returned n c 0).getLast? = some msg → msg.length = sizeofRbtreeMsg ∧ (RbtreeMsg.ofBytes msg).type = replyType := by
  obtain ⟨es, pend, ok⟩ := run.ok deep
  refine ⟨ok.points.linearizable ok.legal, ?_, ?_⟩
  · intro front nid cid req cells log due fresh small
    obtain ⟨call, phase, i, R, junk, pad, _, _, _, rfl⟩ := ok.request log due
    obtain ⟨t, rep⟩ := ok.rep
    obtain ⟨m', v, _, run, _⟩ := handler_call tree σ.value rep deep (Represents.length_lt rep ok.bound small) fresh
      call junk pad
    exact ⟨_, run⟩
  · intro n c call msg here idle last
    obtain ⟨i, v, _, rfl, _⟩ := ok.reply here idle last
    simp [msgReply]

/-- Two calls overlap, and both return. -/
theorem tree_service_linearizable_two : ∃ σ, Run 4 18 maxNodes 64 [] σ ∧
    σ.hist = [.call (0, 0) (.insert 5 7), .call (0, 1) (.erase 5), .ret (0, 0) none, .ret (0, 1) (some 7)] ∧
    Linearizable spec [] σ.hist ∧
    (∀ front nid cid req cells, σ.rpc.log 0 = front ++ [(nid, cid, req)] → front.length = (σ.rpc.replied 0).length → Fresh cells σ.mem →
      heapSize σ.mem.heap σ.mem.root + 1 < maxNodes → ∃ out, rbtreeMsgHandler maxNodes cells 64 σ.mem σ.value req = some out) ∧
    ∀ n c call msg, σ.calls (n, c) = some (call, .waits) → σ.rpc.threads (.client n c) = .idle →
      (σ.rpc.returned n c 0).getLast? = some msg → msg.length = sizeofRbtreeMsg ∧ (RbtreeMsg.ofBytes msg).type = replyType := by
  obtain ⟨σ, run, hist⟩ := exists_two_calls
  exact ⟨σ, run, hist, tree_service_linearizable 4 18 maxNodes 64 [] (Nat.le_refl _) σ run⟩

end BiProject.TreeService
