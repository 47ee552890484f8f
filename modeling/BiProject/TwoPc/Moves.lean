import BiProject.TwoPc.Phases
import Mathlib.Data.Option.Basic

/-!
# What a step does

Every step moves one request to its next phase, or a server finds the key of a SET or a PREPARE in its log and fails.
The moves are told with what the clients see of them and with what the tables get.
-/

namespace BiProject.TwoPc
set_option autoImplicit false
open BiProject.McServer BiProject.Lib.Histories

/-- The first phase of a request. -/
def Op.phase : Op → Phase
  | .get k => .get k
  | .set k v => .set k v

/-- Moves that neither the clients nor the tables see. -/
inductive Passes (c : Side) : Act → Phase → Phase → Prop
  | set (k : Key) (v : Value) : Passes c (.turn c (.client c)) (.set k v) (.prepare k v)
  | prepare (k : Key) (v : Value) : Passes c (.turn (peer c) (.server c)) (.prepare k v) (.prepareOk k v)
  | commitOk (k : Key) (v : Value) : Passes c (.turn c (.server (peer c))) (.commitOk k v) (.setOk k v)

/-- The answer that is on the way. -/
inductive Answered : Phase → Res → Prop
  | got (k : Key) (data : Option (List UInt8)) : Answered (.got k data) (.got data)
  | setOk (k : Key) (v : Value) : Answered (.setOk k v) .stored

/-- **The moves**. -/
inductive Moved {hash : List UInt8 → Nat} (σ σ' : System hash) (ph : Side → Phase) (a : Act) : (Side → Phase) → Prop
  | call {c : Side} {op : Op} (was : ph c = .idle) (hist : σ'.hist = σ.hist ++ [.call c op])
      (tables : ∀ s, (σ'.srv s).table = (σ.srv s).table) : Moved σ σ' ph a (Function.update ph c op.phase)
  | read {c : Side} {k : Key} (was : ph c = .get k) (hist : σ'.hist = σ.hist) (tables : ∀ s, (σ'.srv s).table = (σ.srv s).table) :
      Moved σ σ' ph a (Function.update ph c (.got k ((σ.srv c).table.mcGetKeyExt k)))
  | pass {c : Side} {q : Phase} (was : Passes c a (ph c) q) (hist : σ'.hist = σ.hist) (tables : ∀ s, (σ'.srv s).table = (σ.srv s).table) :
      Moved σ σ' ph a (Function.update ph c q)
  | write {c : Side} {k : Key} {v : Value} (was : ph c = .prepareOk k v) (hist : σ'.hist = σ.hist)
      (table : (σ'.srv c).table = (σ.srv c).table.mcSetKeyExt k v) (tablePeer : (σ'.srv (peer c)).table = (σ.srv (peer c)).table) :
      Moved σ σ' ph a (Function.update ph c (.commit k v))
  | agree {c : Side} {k : Key} {v : Value} (was : ph c = .commit k v) (hist : σ'.hist = σ.hist)
      (table : (σ'.srv c).table = (σ.srv c).table) (tablePeer : (σ'.srv (peer c)).table = (σ.srv (peer c)).table.mcSetKeyExt k v) :
      Moved σ σ' ph a (Function.update ph c (.commitOk k v))
  | ret {c : Side} {r : Res} (was : Answered (ph c) r) (hist : σ'.hist = σ.hist ++ [.ret c r])
      (tables : ∀ s, (σ'.srv s).table = (σ.srv s).table) : Moved σ σ' ph a (Function.update ph c .idle)
  | abort {c : Side} {k : Key} {data : Option (List UInt8)} (was : ph c = .got k data) (hist : σ'.hist = σ.hist)
      (tables : ∀ s, (σ'.srv s).table = (σ.srv s).table) : Moved σ σ' ph a (Function.update ph c (.aborted k data))

/-- The turns that fail: a SET whose key the other server is committing here, and a PREPARE whose key this server is
committing itself. -/
inductive Refused (ph : Side → Phase) : Act → Prop
  | set {c : Side} {k : Key} {v : Value} (was : ph c = .set k v) (held : k ∈ (ph (peer c)).othLog) :
      Refused ph (.turn c (.client c))
  | prepare {c : Side} {k : Key} {v : Value} (was : ph c = .prepare k v) (held : k ∈ (ph (peer c)).ownLog) :
      Refused ph (.turn (peer c) (.server c))

/-! ## Turns and answers -/

section
variable {hash : List UInt8 → Nat} {σ σ' : System hash} {ph : Side → Phase} {c s : Side} {q : Phase} {k : Key} {v : Value}
  {m : McMsg} {rest : List McMsg} {src dst : Node} {st : Srv hash} {ks : List Key}

@[simp] theorem assert_true {p : Prop} [Decidable p] (holds : p) (a : Assertion) : assert p a = .ok () := if_pos holds
@[simp] theorem assert_false {p : Prop} [Decidable p] (fails : ¬ p) (a : Assertion) : assert p a = .error a := if_neg fails

/-- A turn, by what it does with the message it takes. -/
theorem turn_cases (step : σ.step (.turn s src) = some σ') :
    ∃ m rest, σ.chan src (.server s) = m :: rest ∧
      ((∃ a, eventLoop s (σ.srv s) m = .error a ∧ σ' = (σ.setChan src (.server s) rest).fail (.server s) a) ∨
        (∃ st, eventLoop s (σ.srv s) m = .ok (st, none) ∧ σ' = (σ.setChan src (.server s) rest).setSrv s st) ∨
        ∃ st dst m', eventLoop s (σ.srv s) m = .ok (st, some (dst, m')) ∧
          σ' = ((σ.setChan src (.server s) rest).setSrv s st).rpcSend (.server s) dst m') := by
  simp only [System.step, Option.bind_eq_bind, Option.bind_eq_some_iff, Prod.exists] at step
  obtain ⟨_, _, m, σ₁, found, step⟩ := step
  obtain ⟨rest, queue, rfl⟩ := rpcRecv_eq_some found
  refine ⟨m, rest, queue, ?_⟩
  rw [setChan_srv] at step
  split at step
  · rename_i a failed
    exact Or.inl ⟨a, failed, (Option.some.inj step).symm⟩
  · rename_i st done
    exact Or.inr (Or.inl ⟨st, done, (Option.some.inj step).symm⟩)
  · rename_i st dst m' done
    exact Or.inr (Or.inr ⟨st, dst, m', done, (Option.some.inj step).symm⟩)

/-- A turn whose message is answered. -/
theorem turn_sends (step : σ.step (.turn s src) = some σ') (queue : σ.chan src (.server s) = m :: rest) {m' : McMsg}
    (done : eventLoop s (σ.srv s) m = .ok (st, some (dst, m'))) :
    σ' = ((σ.setChan src (.server s) rest).setSrv s st).rpcSend (.server s) dst m' := by
  obtain ⟨n, rest', same, kind⟩ := turn_cases step
  rw [queue, List.cons.injEq] at same
  obtain ⟨rfl, rfl⟩ := same
  rcases kind with ⟨a, failed, _⟩ | ⟨st', silent, _⟩ | ⟨st', dst', m'', done', after⟩
  · rw [done] at failed
    cases failed
  · rw [done] at silent
    cases silent
  · rw [done] at done'
    cases done'
    exact after

/-- A turn that fails. -/
theorem turn_fails (step : σ.step (.turn s src) = some σ') (queue : σ.chan src (.server s) = m :: rest) {a : Assertion}
    (error : eventLoop s (σ.srv s) m = .error a) : σ' = (σ.setChan src (.server s) rest).fail (.server s) a := by
  obtain ⟨n, rest', same, kind⟩ := turn_cases step
  rw [queue, List.cons.injEq] at same
  obtain ⟨rfl, rfl⟩ := same
  rcases kind with ⟨a', failed, after⟩ | ⟨st', silent, _⟩ | ⟨st', dst', m'', done', _⟩
  · rw [error] at failed
    cases failed
    exact after
  · rw [error] at silent
    cases silent
  · rw [error] at done'
    cases done'

/-- A GET is answered. -/
theorem eventLoop_get (s c : Side) (st : Srv hash) (k : Key) :
    eventLoop s st (.get (.client c) k) = .ok (st, some (.client c, getAnswer s (st.table.mcGetKeyExt k))) := by
  cases found : st.table.mcGetKeyExt k with
  | some data => simp [eventLoop, Node.isClient, found, getAnswer, bind, Except.bind, pure, Except.pure]
  | none => simp [eventLoop, Node.isClient, found, getAnswer, bind, Except.bind, pure, Except.pure]

/-- A SET of a key that is in the log fails, -/
theorem eventLoop_set_held (s c : Side) (log : LogHolds st.logKey ks) (held : k ∈ ks) (v : Value) :
    eventLoop s st (.set (.client c) k v) = .error .keyHeld := by
  simp [eventLoop, Node.isClient, log.commit_held held, bind, Except.bind]

/-- and any other is logged and prepared at the other server. -/
theorem eventLoop_set (s c : Side) (log : LogHolds st.logKey ks) (new : k ∉ ks) (room : ks.length < 2) (v : Value) :
    ∃ log', eventLoop s st (.set (.client c) k v) = .ok ({ st with clientId := .client c, logKey := log' },
        some (.server (peer s), .prepare (.server s) k v)) ∧ LogHolds log' (k :: ks) := by
  obtain ⟨log', commit, holds⟩ := log.commit_new new room
  exact ⟨log', by simp [eventLoop, Node.isClient, commit, bind, Except.bind, pure, Except.pure], holds⟩

/-- A PREPARE of a key that is in the log fails, -/
theorem eventLoop_prepare_held (s : Side) (log : LogHolds st.logKey ks) (held : k ∈ ks) (v : Value) :
    eventLoop s st (.prepare (.server (peer s)) k v) = .error .keyHeld := by
  simp [eventLoop, log.commit_held held, bind, Except.bind]

/-- and any other is logged and confirmed. -/
theorem eventLoop_prepare (s : Side) (log : LogHolds st.logKey ks) (new : k ∉ ks) (room : ks.length < 2) (v : Value) :
    ∃ log', eventLoop s st (.prepare (.server (peer s)) k v) = .ok ({ st with logKey := log' },
        some (.server (peer s), .prepareOk (.server s) k v)) ∧ LogHolds log' (k :: ks) := by
  obtain ⟨log', commit, holds⟩ := log.commit_new new room
  exact ⟨log', by simp [eventLoop, commit, bind, Except.bind, pure, Except.pure], holds⟩

/-- A PREPARE_OK lets the server write the key, and ask for the commit. -/
theorem eventLoop_prepareOk (s : Side) (log : LogHolds st.logKey ks) (held : k ∈ ks) (v : Value) :
    ∃ log', eventLoop s st (.prepareOk (.server (peer s)) k v) = .ok ({ st with logKey := log', table := st.table.mcSetKeyExt k v },
        some (.server (peer s), .commit (.server s) k v)) ∧ LogHolds log' (ks.erase k) := by
  obtain ⟨log', update, holds⟩ := log.update held
  exact ⟨log', by simp [eventLoop, update, bind, Except.bind, pure, Except.pure], holds⟩

/-- A COMMIT lets the other one write it. -/
theorem eventLoop_commit (s : Side) (log : LogHolds st.logKey ks) (held : k ∈ ks) (v : Value) :
    ∃ log', eventLoop s st (.commit (.server (peer s)) k v) = .ok ({ st with logKey := log', table := st.table.mcSetKeyExt k v },
        some (.server (peer s), .commitOk (.server s))) ∧ LogHolds log' (ks.erase k) := by
  obtain ⟨log', update, holds⟩ := log.update held
  exact ⟨log', by simp [eventLoop, update, bind, Except.bind, pure, Except.pure], holds⟩

/-- A COMMIT_OK lets the first one answer its client. -/
theorem eventLoop_commitOk (s : Side) (mine : st.clientId = .client s) :
    eventLoop s st (.commitOk (.server (peer s))) = .ok (st, some (.client s, .setOk (.server s))) := by
  simp [eventLoop, mine, bind, Except.bind, pure, Except.pure]

/-! ## The moves of a request -/

/-- A client whose phase is at the same call is where it was, -/
theorem Ok.client_same (ok : Ok σ ph) (same : q.pc = (ph c).pc) : σ.client = Function.update σ.client c q.pc := by
  rw [same, ← ok.pc c, Function.update_eq_self]

/-- and has not failed since. -/
theorem Ok.failed_same (ok : Ok σ ph) (same : q.failed = (ph c).failed) : σ.failed = Function.update σ.failed (.client c) q.failed := by
  rw [same, ← ok.failed c, Function.update_eq_self]

/-- What the requests have in the queue to the other server and in the one from it. -/
theorem Ok.linkPeer (ok : Ok σ ph) (c : Side) :
    (σ.chan (.server (peer c)) (.server c)).Perm ((ph (peer c)).own (peer c) ++ (ph c).ans (peer c)) := by
  simpa using ok.link (peer c)

/-- What is in the log of the other server, -/
theorem Ok.logPeer (ok : Ok σ ph) (c : Side) : LogHolds (σ.srv (peer c)).logKey ((ph (peer c)).ownLog ++ (ph c).othLog) := by
  simpa using ok.log (peer c)

/-- each key once. -/
theorem Ok.distinctPeer (ok : Ok σ ph) (c : Side) : ∀ k ∈ (ph (peer c)).othLog, k ∉ (ph c).ownLog ∧ k ∉ (ph c).othLog := by
  simpa using ok.distinct (peer c)

/-- A request has one key in the log of its server at most, -/
theorem Phase.ownLog_length (ph : Phase) : ph.ownLog.length ≤ 1 := by
  cases ph <;> simp

/-- and one in the other's. -/
theorem Phase.othLog_length (ph : Phase) : ph.othLog.length ≤ 1 := by
  cases ph <;> simp

/-- A server answers a GET. -/
theorem Ok.turn_get (ok : Ok σ ph) (was : ph c = .get k) (step : σ.step (.turn c (.client c)) = some σ') :
    ∃ ph', Ok σ' ph' ∧ Moved σ σ' ph (.turn c (.client c)) ph' := by
  have queue : σ.chan (.client c) (.server c) = [.get (.client c) k] := by
    rw [ok.req, was]
    rfl
  have room : σ.chan (.server c) (.client c) = [] := by
    rw [ok.rep, was]
    rfl
  have after := turn_sends step queue (eventLoop_get c c (σ.srv c) k)
  rw [rpcSend_eq (by simp [room])] at after
  subst after
  have out := ok.link c
  have back := ok.linkPeer c
  have log := ok.log c
  have logPeer := ok.logPeer c
  rw [was] at out back log logPeer
  refine ⟨_, ok.move (q := .got k ((σ.srv c).table.mcGetKeyExt k)) (c := c) ?_ ?_ ?_ ?_ ?_ ?_ ?_ ?_ ?_ ?_ ?_ ?_ ?_, .read was rfl (by simp)⟩
  · exact ok.client_same (by rw [was]; rfl)
  · exact ok.failed_same (by rw [was]; rfl)
  · simp
  · simp [room]
  · simpa using out
  · simpa using back
  · intro src dst other
    simp only [between, not_or] at other
    simp [other]
  · simpa using log
  · simpa using logPeer
  · exact fun inside => inside.elim
  · simp
  · simp
  · simp

/-- A server takes a SET: it logs the key and prepares the other server, or has the key in its log. -/
theorem Ok.turn_set (ok : Ok σ ph) (was : ph c = .set k v) (step : σ.step (.turn c (.client c)) = some σ') :
    k ∈ (ph (peer c)).othLog ∧ σ'.failed (.server c) = some .keyHeld ∨ ∃ ph', Ok σ' ph' ∧ Moved σ σ' ph (.turn c (.client c)) ph' := by
  have queue : σ.chan (.client c) (.server c) = [.set (.client c) k v] := by
    rw [ok.req, was]
    rfl
  have out : (σ.chan (.server c) (.server (peer c))).Perm ((ph (peer c)).ans c) := by simpa [was] using ok.link c
  have back : (σ.chan (.server (peer c)) (.server c)).Perm ((ph (peer c)).own (peer c)) := by simpa [was] using ok.linkPeer c
  have log : LogHolds (σ.srv c).logKey (ph (peer c)).othLog := by simpa [was] using ok.log c
  have logPeer : LogHolds (σ.srv (peer c)).logKey (ph (peer c)).ownLog := by simpa [was] using ok.logPeer c
  by_cases held : k ∈ (ph (peer c)).othLog
  · have after := turn_fails step queue (eventLoop_set_held c c log held v)
    refine Or.inl ⟨held, ?_⟩
    simp [after, System.fail]
  · have short := (ph (peer c)).othLog_length
    obtain ⟨log', done, logged⟩ := eventLoop_set c c log held (by omega) v
    have after := turn_sends step queue done
    have room := (ph (peer c)).ans_length c
    rw [← out.length_eq] at room
    rw [rpcSend_eq (by simpa using room)] at after
    subst after
    refine Or.inr ⟨_, ok.move (q := .prepare k v) (c := c) ?_ ?_ ?_ ?_ ?_ ?_ ?_ ?_ ?_ ?_ ?_ ?_ ?_,
      .pass (was ▸ .set k v) rfl fun s => ?_⟩
    · exact ok.client_same (by rw [was]; rfl)
    · exact ok.failed_same (by rw [was]; rfl)
    · simp
    · simpa [was] using ok.rep c
    · simpa using List.perm_append_comm.trans (out.cons (.prepare (.server c) k v))
    · simpa using back
    · intro src dst other
      simp only [between, not_or] at other
      simp [other]
    · simpa using logged
    · simpa using logPeer
    · simp
    · simp
    · simp
    · intro k' inside
      simpa using fun same : k' = k => held (same ▸ inside)
    · rcases side_cases c s with rfl | rfl
      · simp
      · simp

/-- The other server takes the PREPARE. -/
theorem Ok.turn_prepare (ok : Ok σ ph) (was : ph c = .prepare k v)
    (queue : σ.chan (.server c) (.server (peer c)) = .prepare (.server c) k v :: rest) (less : rest.Perm ((ph (peer c)).ans c))
    (step : σ.step (.turn (peer c) (.server c)) = some σ') :
    k ∈ (ph (peer c)).ownLog ∧ σ'.failed (.server (peer c)) = some .keyHeld ∨ ∃ ph', Ok σ' ph' ∧ Moved σ σ' ph (.turn (peer c) (.server c)) ph' := by
  have back : (σ.chan (.server (peer c)) (.server c)).Perm ((ph (peer c)).own (peer c)) := by simpa [was] using ok.linkPeer c
  have log : LogHolds (σ.srv c).logKey ([k] ++ (ph (peer c)).othLog) := by simpa [was] using ok.log c
  have logPeer : LogHolds (σ.srv (peer c)).logKey (ph (peer c)).ownLog := by simpa [was] using ok.logPeer c
  have new : ∀ k' ∈ (ph (peer c)).othLog, k' ≠ k := by simpa [was] using ok.distinctPeer c
  by_cases held : k ∈ (ph (peer c)).ownLog
  · have error := eventLoop_prepare_held (peer c) logPeer held v
    rw [peer_peer] at error
    have after := turn_fails step queue error
    refine Or.inl ⟨held, ?_⟩
    simp [after, System.fail]
  · have short := (ph (peer c)).ownLog_length
    obtain ⟨log', done, logged⟩ := eventLoop_prepare (peer c) logPeer held (by omega) v
    rw [peer_peer] at done
    have after := turn_sends step queue done
    have room := (ph (peer c)).own_length (peer c)
    rw [← back.length_eq] at room
    rw [rpcSend_eq (by simpa using room)] at after
    subst after
    refine Or.inr ⟨_, ok.move (q := .prepareOk k v) (c := c) ?_ ?_ ?_ ?_ ?_ ?_ ?_ ?_ ?_ ?_ ?_ ?_ ?_,
      .pass (was ▸ .prepare k v) rfl fun s => ?_⟩
    · exact ok.client_same (by rw [was]; rfl)
    · exact ok.failed_same (by rw [was]; rfl)
    · simpa [was] using ok.req c
    · simpa [was] using ok.rep c
    · simpa using less
    · simpa using back.append_right [.prepareOk (.server (peer c)) k v]
    · intro src dst other
      simp only [between, not_or] at other
      simp [other]
    · simpa using log
    · simpa using logged.perm (List.perm_append_singleton k _).symm
    · exact fun _ => by simpa using ok.clientId c (by simp [was])
    · simp
    · intro k' inside
      rw [List.mem_singleton.mp inside]
      exact ⟨held, fun there => new k there rfl⟩
    · simpa using new
    · rcases side_cases c s with rfl | rfl
      · simp
      · simp

/-- The first server gets the PREPARE_OK and writes the key. -/
theorem Ok.turn_prepareOk (ok : Ok σ ph) (was : ph c = .prepareOk k v)
    (queue : σ.chan (.server (peer c)) (.server c) = .prepareOk (.server (peer c)) k v :: rest)
    (less : rest.Perm ((ph (peer c)).own (peer c))) (step : σ.step (.turn c (.server (peer c))) = some σ') :
    ∃ ph', Ok σ' ph' ∧ Moved σ σ' ph (.turn c (.server (peer c))) ph' := by
  have out : (σ.chan (.server c) (.server (peer c))).Perm ((ph (peer c)).ans c) := by simpa [was] using ok.link c
  have log : LogHolds (σ.srv c).logKey (k :: (ph (peer c)).othLog) := by simpa [was] using ok.log c
  have logPeer : LogHolds (σ.srv (peer c)).logKey ((ph (peer c)).ownLog ++ [k]) := by simpa [was] using ok.logPeer c
  have distinct := ok.distinct c
  have distinctPeer := ok.distinctPeer c
  rw [was] at distinct distinctPeer
  obtain ⟨log', done, freed⟩ := eventLoop_prepareOk c log List.mem_cons_self v
  have after := turn_sends step queue done
  have room := (ph (peer c)).ans_length c
  rw [← out.length_eq] at room
  rw [rpcSend_eq (by simpa using room)] at after
  subst after
  refine ⟨_, ok.move (q := .commit k v) (c := c) ?_ ?_ ?_ ?_ ?_ ?_ ?_ ?_ ?_ ?_ ?_ ?_ ?_, .write was rfl (by simp) (by simp)⟩
  · exact ok.client_same (by rw [was]; rfl)
  · exact ok.failed_same (by rw [was]; rfl)
  · simpa [was] using ok.req c
  · simpa [was] using ok.rep c
  · simpa using List.perm_append_comm.trans (out.cons (.commit (.server c) k v))
  · simpa using less
  · intro src dst other
    simp only [between, not_or] at other
    simp [other]
  · simpa using freed
  · simpa using logPeer
  · exact fun _ => by simpa using ok.clientId c (by simp [was])
  · simp
  · exact distinct
  · exact fun k' inside => ⟨List.not_mem_nil, (distinctPeer k' inside).2⟩

/-- The other server gets the COMMIT and writes it too. -/
theorem Ok.turn_commit (ok : Ok σ ph) (was : ph c = .commit k v)
    (queue : σ.chan (.server c) (.server (peer c)) = .commit (.server c) k v :: rest) (less : rest.Perm ((ph (peer c)).ans c))
    (step : σ.step (.turn (peer c) (.server c)) = some σ') : ∃ ph', Ok σ' ph' ∧ Moved σ σ' ph (.turn (peer c) (.server c)) ph' := by
  have back : (σ.chan (.server (peer c)) (.server c)).Perm ((ph (peer c)).own (peer c)) := by simpa [was] using ok.linkPeer c
  have log : LogHolds (σ.srv c).logKey (ph (peer c)).othLog := by simpa [was] using ok.log c
  have logPeer : LogHolds (σ.srv (peer c)).logKey ((ph (peer c)).ownLog ++ [k]) := by simpa [was] using ok.logPeer c
  have first : LogHolds (σ.srv (peer c)).logKey (k :: (ph (peer c)).ownLog) := logPeer.perm List.perm_append_comm
  obtain ⟨log', done, freed⟩ := eventLoop_commit (peer c) first List.mem_cons_self v
  rw [peer_peer] at done
  have after := turn_sends step queue done
  have room := (ph (peer c)).own_length (peer c)
  rw [← back.length_eq] at room
  rw [rpcSend_eq (by simpa using room)] at after
  subst after
  refine ⟨_, ok.move (q := .commitOk k v) (c := c) ?_ ?_ ?_ ?_ ?_ ?_ ?_ ?_ ?_ ?_ ?_ ?_ ?_, .agree was rfl (by simp) (by simp)⟩
  · exact ok.client_same (by rw [was]; rfl)
  · exact ok.failed_same (by rw [was]; rfl)
  · simpa [was] using ok.req c
  · simpa [was] using ok.rep c
  · simpa using less
  · simpa using back.append_right [.commitOk (.server (peer c))]
  · intro src dst other
    simp only [between, not_or] at other
    simp [other]
  · simpa using log
  · simpa using freed
  · exact fun _ => by simpa using ok.clientId c (by simp [was])
  · simp
  · simp
  · simp

/-- The first server answers the client. -/
theorem Ok.turn_commitOk (ok : Ok σ ph) (was : ph c = .commitOk k v)
    (queue : σ.chan (.server (peer c)) (.server c) = .commitOk (.server (peer c)) :: rest)
    (less : rest.Perm ((ph (peer c)).own (peer c))) (step : σ.step (.turn c (.server (peer c))) = some σ') :
    ∃ ph', Ok σ' ph' ∧ Moved σ σ' ph (.turn c (.server (peer c))) ph' := by
  have room : σ.chan (.server c) (.client c) = [] := by
    rw [ok.rep, was]
    rfl
  have after := turn_sends step queue (eventLoop_commitOk c (ok.clientId c (by simp [was])))
  rw [rpcSend_eq (by simp [room])] at after
  subst after
  have out := ok.link c
  have log := ok.log c
  have logPeer := ok.logPeer c
  rw [was] at out log logPeer
  refine ⟨_, ok.move (q := .setOk k v) (c := c) ?_ ?_ ?_ ?_ ?_ ?_ ?_ ?_ ?_ ?_ ?_ ?_ ?_,
    .pass (was ▸ .commitOk k v) rfl (by simp)⟩
  · exact ok.client_same (by rw [was]; rfl)
  · exact ok.failed_same (by rw [was]; rfl)
  · simpa [was] using ok.req c
  · simp [room]
  · simpa using out
  · simpa using less
  · intro src dst other
    simp only [between, not_or] at other
    simp [other]
  · simpa using log
  · simpa using logPeer
  · exact fun inside => inside.elim
  · simp
  · simp
  · simp

/-- The messages that a server may find in its queues. -/
inductive Taken (ph : Side → Phase) : Side → Node → McMsg → List McMsg → Prop
  | get {c : Side} {k : Key} (was : ph c = .get k) : Taken ph c (.client c) (.get (.client c) k) []
  | set {c : Side} {k : Key} {v : Value} (was : ph c = .set k v) : Taken ph c (.client c) (.set (.client c) k v) []
  | prepare {c : Side} {k : Key} {v : Value} {rest : List McMsg} (was : ph c = .prepare k v) (less : rest.Perm ((ph (peer c)).ans c)) :
      Taken ph (peer c) (.server c) (.prepare (.server c) k v) rest
  | prepareOk {c : Side} {k : Key} {v : Value} {rest : List McMsg} (was : ph c = .prepareOk k v)
      (less : rest.Perm ((ph (peer c)).own (peer c))) : Taken ph c (.server (peer c)) (.prepareOk (.server (peer c)) k v) rest
  | commit {c : Side} {k : Key} {v : Value} {rest : List McMsg} (was : ph c = .commit k v) (less : rest.Perm ((ph (peer c)).ans c)) :
      Taken ph (peer c) (.server c) (.commit (.server c) k v) rest
  | commitOk {c : Side} {k : Key} {v : Value} {rest : List McMsg} (was : ph c = .commitOk k v)
      (less : rest.Perm ((ph (peer c)).own (peer c))) : Taken ph c (.server (peer c)) (.commitOk (.server (peer c))) rest

/-- What a server takes is one of these. -/
theorem Ok.taken (ok : Ok σ ph) (queue : σ.chan src (.server s) = m :: rest) : Taken ph s src m rest := by
  have inUse : used src (.server s) := by
    by_contra unused
    rw [ok.quiet _ _ unused] at queue
    cases queue
  cases src with
  | client c =>
    obtain rfl : c = s := inUse
    have req := ok.req c
    rw [queue] at req
    cases was : ph c with
    | get k =>
      obtain ⟨rfl, rfl⟩ : m = .get (.client c) k ∧ rest = [] := by simpa [was] using req
      exact .get was
    | set k v =>
      obtain ⟨rfl, rfl⟩ : m = .set (.client c) k v ∧ rest = [] := by simpa [was] using req
      exact .set was
    | _ => simp [was] at req
  | server t =>
    obtain rfl : s = peer t := inUse
    rcases ok.link_cases t queue with ⟨own, less⟩ | ⟨ans, less⟩
    · cases was : ph t with
      | prepare k v =>
        obtain rfl : .prepare (.server t) k v = m := by simpa [was] using own
        exact .prepare was less
      | commit k v =>
        obtain rfl : .commit (.server t) k v = m := by simpa [was] using own
        exact .commit was less
      | _ => simp [was] at own
    · -- the request is that of the server that takes the turn
      obtain ⟨c, rfl⟩ : ∃ c, t = peer c := ⟨peer t, (peer_peer t).symm⟩
      rw [peer_peer] at ans ⊢
      cases was : ph c with
      | prepareOk k v =>
        obtain rfl : .prepareOk (.server (peer c)) k v = m := by simpa [was] using ans
        exact .prepareOk was less
      | commitOk k v =>
        obtain rfl : .commitOk (.server (peer c)) = m := by simpa [was] using ans
        exact .commitOk was less
      | _ => simp [was] at ans

/-- **A turn** moves a request on, or is refused. -/
theorem Ok.turn (ok : Ok σ ph) (step : σ.step (.turn s src) = some σ') :
    Refused ph (.turn s src) ∧ σ'.failed (.server s) = some .keyHeld ∨ ∃ ph', Ok σ' ph' ∧ Moved σ σ' ph (.turn s src) ph' := by
  obtain ⟨m, rest, queue, _⟩ := turn_cases step
  cases ok.taken queue with
  | get was => exact Or.inr (ok.turn_get was step)
  | set was => exact (ok.turn_set was step).imp_left fun ⟨held, failed⟩ => ⟨.set was held, failed⟩
  | prepare was less => exact (ok.turn_prepare was queue less step).imp_left fun ⟨held, failed⟩ => ⟨.prepare was held, failed⟩
  | prepareOk was less => exact Or.inr (ok.turn_prepareOk was queue less step)
  | commit was less => exact Or.inr (ok.turn_commit was queue less step)
  | commitOk was less => exact Or.inr (ok.turn_commitOk was queue less step)

/-- A client that waits for nothing has no request. -/
theorem Phase.eq_idle {ph : Phase} (idle : ph.pc = .idle) : ph = .idle := by
  cases ph <;> simp at idle
  rfl

/-- A client sends a request. -/
theorem Ok.request (ok : Ok σ ph) (was : ph c = .idle) {op : Op} {pc : Pc} {a : Act} (waits : op.phase.pc = pc) (sends : op.phase.req c = [m])
    (after : σ' = (σ.call c op pc).rpcSend (.client c) (.server c) m) : ∃ ph', Ok σ' ph' ∧ Moved σ σ' ph a ph' := by
  have room : σ.chan (.client c) (.server c) = [] := by
    rw [ok.req, was]
    rfl
  have same : (σ.call c op pc).chan = σ.chan := rfl
  have kept : (σ.call c op pc).srv = σ.srv := rfl
  rw [rpcSend_eq (by simp [same, room])] at after
  subst after
  have idle : op.phase.rep c = [] ∧ op.phase.own c = [] ∧ op.phase.ans (peer c) = [] ∧ op.phase.ownLog = [] ∧
      op.phase.othLog = [] ∧ op.phase.failed = none ∧ ¬ op.phase.inCommit := by
    cases op <;> simp [Op.phase]
  obtain ⟨rep, own, ans, ownLog, othLog, failed, inCommit⟩ := idle
  refine ⟨_, ok.move (q := op.phase) (c := c) ?_ ?_ ?_ ?_ ?_ ?_ ?_ ?_ ?_ ?_ ?_ ?_ ?_, .call was rfl fun s => rfl⟩
  · rw [waits]
    rfl
  · exact ok.failed_same (by rw [was, failed]; rfl)
  · simp [same, room, sends]
  · simpa [same, was, rep] using ok.rep c
  · simpa [same, was, own] using ok.link c
  · simpa [same, was, ans] using ok.linkPeer c
  · intro src dst other
    simp only [between, not_or] at other
    simp [other, same]
  · simpa [kept, was, ownLog] using ok.log c
  · simpa [kept, was, othLog] using ok.logPeer c
  · exact fun inside => absurd inside inCommit
  · rfl
  · simp [othLog]
  · simp [ownLog, othLog]

/-- A client has its answer, and returns or aborts. -/
theorem Ok.answered (ok : Ok σ ph) (was : (ph c).rep c = [m]) (next : q = .idle ∨ ∃ k data, q = .aborted k data)
    (client : σ'.client = Function.update σ.client c q.pc) (failed : σ'.failed = Function.update σ.failed (.client c) q.failed)
    (chan : σ'.chan = (σ.setChan (.server c) (.client c) []).chan) (srv : σ'.srv = σ.srv) : Ok σ' (Function.update ph c q) := by
  have before : (ph c).req c = [] ∧ (ph c).own c = [] ∧ (ph c).ans (peer c) = [] ∧ (ph c).ownLog = [] ∧ (ph c).othLog = [] := by
    cases now : ph c <;> simp [now] at was ⊢
  have now : q.req c = [] ∧ q.rep c = [] ∧ q.own c = [] ∧ q.ans (peer c) = [] ∧ q.ownLog = [] ∧ q.othLog = [] ∧ ¬ q.inCommit := by
    rcases next with rfl | ⟨k, data, rfl⟩ <;> simp
  obtain ⟨req, own, ans, ownLog, othLog⟩ := before
  obtain ⟨req', rep', own', ans', ownLog', othLog', inCommit'⟩ := now
  refine ok.move client failed ?_ ?_ ?_ ?_ ?_ ?_ ?_ ?_ ?_ ?_ ?_
  · simpa [chan, req, req'] using ok.req c
  · simp [chan, rep']
  · simpa [chan, own, own'] using ok.link c
  · simpa [chan, ans, ans'] using ok.linkPeer c
  · intro src dst other
    simp only [between, not_or] at other
    simp [chan, other]
  · simpa [srv, ownLog, ownLog'] using ok.log c
  · simpa [srv, othLog, othLog'] using ok.logPeer c
  · exact fun inside => absurd inside inCommit'
  · rw [srv]
  · simp [othLog']
  · simp [ownLog', othLog']

/-- The client has the answer to its GET, or aborts on it. -/
theorem clientReply_got (c : Side) (k : Key) (data : Option (List UInt8)) :
    clientReply c (.getKey k) (getAnswer c data) = .ok (.got data) ∨ clientReply c (.getKey k) (getAnswer c data) = .error .replyData := by
  cases data with
  | none => exact Or.inl (by simp [clientReply, getAnswer, McMsg.id, bind, Except.bind, pure, Except.pure])
  | some data =>
    by_cases length : data.length = vLength
    · by_cases head : data.head? = some 36
      · exact Or.inl (by simp [clientReply, getAnswer, McMsg.id, length, head, bind, Except.bind, pure, Except.pure])
      · exact Or.inr (by simp [clientReply, getAnswer, McMsg.id, length, head, bind, Except.bind])
    · exact Or.inr (by simp [clientReply, getAnswer, McMsg.id, length, bind, Except.bind])

/-- A client takes its answer. -/
theorem Ok.reply (ok : Ok σ ph) (step : σ.step (.reply c src) = some σ') : ∃ ph', Ok σ' ph' ∧ Moved σ σ' ph (.reply c src) ph' := by
  simp only [System.step, Option.bind_eq_bind, Option.bind_eq_some_iff, Prod.exists] at step
  obtain ⟨_, _, m, σ₁, found, step⟩ := step
  obtain ⟨rest, queue, rfl⟩ := rpcRecv_eq_some found
  rw [setChan_client] at step
  have inUse : used src (.client c) := by
    by_contra unused
    rw [ok.quiet _ _ unused] at queue
    cases queue
  obtain ⟨s, rfl⟩ : ∃ s, src = .server s := by
    cases src with
    | client t => exact inUse.elim
    | server s => exact ⟨s, rfl⟩
  obtain rfl : c = s := inUse
  have rep := ok.rep c
  have pc := ok.pc c
  rw [queue] at rep
  cases was : ph c with
  | got k data =>
    rw [was] at rep pc
    obtain ⟨rfl, rfl⟩ : m = getAnswer c data ∧ rest = [] := by simpa using rep
    rw [show σ.client c = .getKey k from pc] at step
    rcases clientReply_got c k data with done | aborts
    · rw [done] at step
      obtain rfl := (Option.some.inj step).symm
      refine ⟨_, ok.answered (by rw [was]; rfl) (Or.inl rfl) rfl ?_ rfl rfl, .ret (was ▸ .got k data) rfl fun s => rfl⟩
      exact ok.failed_same (by rw [was]; rfl)
    · rw [aborts] at step
      obtain rfl := (Option.some.inj step).symm
      refine ⟨_, ok.answered (q := .aborted k data) (by rw [was]; rfl) (Or.inr ⟨k, data, rfl⟩) ?_ rfl rfl rfl, .abort was rfl fun s => rfl⟩
      exact ok.client_same (by rw [was]; rfl)
  | setOk k v =>
    rw [was] at rep pc
    obtain ⟨rfl, rfl⟩ : m = .setOk (.server c) ∧ rest = [] := by simpa using rep
    have done : clientReply c (.setKey k v) (.setOk (.server c)) = .ok .stored := by
      simp [clientReply, McMsg.id, bind, Except.bind, pure, Except.pure]
    rw [show σ.client c = .setKey k v from pc, done] at step
    obtain rfl := (Option.some.inj step).symm
    refine ⟨_, ok.answered (by rw [was]; rfl) (Or.inl rfl) rfl ?_ rfl rfl, .ret (was ▸ .setOk k v) rfl fun s => rfl⟩
    exact ok.failed_same (by rw [was]; rfl)
  | _ => simp [was] at rep

/-- **Every step** is one of the moves, or a server refuses a key. -/
theorem Ok.step {a : Act} (ok : Ok σ ph) (step : σ.step a = some σ') :
    Refused ph a ∧ (∃ s, σ'.failed (.server s) = some .keyHeld) ∨ ∃ ph', Ok σ' ph' ∧ Moved σ σ' ph a ph' := by
  cases a with
  | get c key =>
    simp only [System.step, Option.bind_eq_bind, Option.bind_eq_some_iff, Option.guard_eq_some', Option.pure_def,
      Option.some.injEq] at step
    obtain ⟨_, ⟨_, idle⟩, rfl⟩ := step
    have was := Phase.eq_idle (ok.pc c ▸ idle)
    exact Or.inr (ok.request was (show (Op.get key).phase.pc = _ from rfl) rfl rfl)
  | set c key data =>
    simp only [System.step, Option.bind_eq_bind, Option.bind_eq_some_iff, Option.guard_eq_some', Option.pure_def,
      Option.some.injEq] at step
    obtain ⟨_, ⟨_, idle⟩, rfl⟩ := step
    have was := Phase.eq_idle (ok.pc c ▸ idle)
    exact Or.inr (ok.request was (show (Op.set key data).phase.pc = _ from rfl) rfl rfl)
  | reply c src => exact Or.inr (ok.reply step)
  | turn s src => exact (ok.turn step).imp_left fun ⟨refused, failed⟩ => ⟨refused, s, failed⟩

/-! ## What has failed -/

/-- Failing fails nobody else, -/
theorem fail_failed {n n' : Node} {x : Assertion} (alive : (σ.fail n x).failed n' = none) : σ.failed n' = none := by
  by_cases same : n' = n
  · subst same
    simp [System.fail] at alive
  · simpa [System.fail, same] using alive

/-- and sending fails the sender at most. -/
theorem rpcSend_failed {n : Node} (alive : (σ.rpcSend src dst m).failed n = none) : σ.failed n = none := by
  unfold System.rpcSend at alive
  split at alive
  · exact alive
  · exact fail_failed alive

/-- A node that has failed stays so. -/
theorem step_failed {a : Act} {n : Node} (step : σ.step a = some σ') (alive : σ'.failed n = none) : σ.failed n = none := by
  cases a with
  | turn s src =>
    obtain ⟨m, rest, _, ⟨x, _, rfl⟩ | ⟨st, _, rfl⟩ | ⟨st, dst, m', _, rfl⟩⟩ := turn_cases step
    · exact fail_failed (σ := σ.setChan _ _ _) alive
    · exact alive
    · exact rpcSend_failed (σ := (σ.setChan _ _ _).setSrv s st) alive
  | reply c src =>
    simp only [System.step, Option.bind_eq_bind, Option.bind_eq_some_iff, Prod.exists] at step
    obtain ⟨_, _, m, σ₁, found, step⟩ := step
    obtain ⟨rest, queue, rfl⟩ := rpcRecv_eq_some found
    split at step
    · obtain rfl := (Option.some.inj step).symm
      exact fail_failed (σ := σ.setChan _ _ _) alive
    · obtain rfl := (Option.some.inj step).symm
      exact alive
  | get c key =>
    simp only [System.step, Option.bind_eq_bind, Option.bind_eq_some_iff, Option.pure_def, Option.some.injEq] at step
    obtain ⟨_, _, rfl⟩ := step
    exact rpcSend_failed (σ := σ.call _ _ _) alive
  | set c key data =>
    simp only [System.step, Option.bind_eq_bind, Option.bind_eq_some_iff, Option.pure_def, Option.some.injEq] at step
    obtain ⟨_, _, rfl⟩ := step
    exact rpcSend_failed (σ := σ.call _ _ _) alive

/-- **The phases explain every state** of a run in which no server has failed. -/
theorem reachable_ok (reach : Reachable σ) (alive : ∀ s, σ.failed (.server s) = none) : ∃ ph, Ok σ ph := by
  induction reach with
  | init => exact ⟨_, Ok.init⟩
  | step _ _ step ih =>
    obtain ⟨ph, ok⟩ := ih fun s => step_failed step (alive s)
    rcases ok.step step with ⟨_, s, failed⟩ | ⟨ph', ok', _⟩
    · rw [alive s] at failed
      cases failed
    · exact ⟨ph', ok'⟩

end

end BiProject.TwoPc
