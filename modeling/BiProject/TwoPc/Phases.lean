import BiProject.TwoPc.System
import Mathlib.Data.List.Perm.Basic

/-!
# The phases of a request

At every moment a client's request is in one phase, and this tells all there is of it: the one message of it that is
on the way, the logs that hold its key, and the variables of its server. What is in a queue or a log is the sum of what
the requests of both clients have there.
-/

namespace BiProject.TwoPc
set_option autoImplicit false
open BiProject.McServer BiProject.Lib.Histories

/-! ## Phases -/

/-- The answer to a GET. -/
def getAnswer (c : Side) : Option (List UInt8) → McMsg
  | some data => .getOk (.server c) data
  | none => .getFail (.server c)

/-- A phase is named after the message that is on the way. In the last one the client has aborted on its answer. -/
inductive Phase where
  | idle
  | get (key : Key)
  | got (key : Key) (data : Option (List UInt8))
  | set (key : Key) (data : Value)
  | prepare (key : Key) (data : Value)
  | prepareOk (key : Key) (data : Value)
  | commit (key : Key) (data : Value)
  | commitOk (key : Key) (data : Value)
  | setOk (key : Key) (data : Value)
  | aborted (key : Key) (data : Option (List UInt8))

/-- The client, -/
def Phase.pc : Phase → Pc
  | .idle => .idle
  | .get k | .got k _ | .aborted k _ => .getKey k
  | .set k v | .prepare k v | .prepareOk k v | .commit k v | .commitOk k v | .setOk k v => .setKey k v

/-- with what it has failed on, -/
def Phase.failed : Phase → Option Assertion
  | .aborted _ _ => some .replyData
  | _ => none

/-- its requests, -/
def Phase.req (c : Side) : Phase → List McMsg
  | .get k => [.get (.client c) k]
  | .set k v => [.set (.client c) k v]
  | _ => []

/-- the answers to it, -/
def Phase.rep (c : Side) : Phase → List McMsg
  | .got _ data => [getAnswer c data]
  | .setOk _ _ => [.setOk (.server c)]
  | _ => []

/-- the messages of its server to the other, -/
def Phase.own (c : Side) : Phase → List McMsg
  | .prepare k v => [.prepare (.server c) k v]
  | .commit k v => [.commit (.server c) k v]
  | _ => []

/-- those of the other server, -/
def Phase.ans (p : Side) : Phase → List McMsg
  | .prepareOk k v => [.prepareOk (.server p) k v]
  | .commitOk _ _ => [.commitOk (.server p)]
  | _ => []

/-- the log of its server, -/
def Phase.ownLog : Phase → List Key
  | .prepare k _ | .prepareOk k _ => [k]
  | _ => []

/-- and that of the other. -/
def Phase.othLog : Phase → List Key
  | .prepareOk k _ | .commit k _ => [k]
  | _ => []

/-- The server has taken the SET and not answered it. -/
def Phase.inCommit : Phase → Prop
  | .prepare _ _ | .prepareOk _ _ | .commit _ _ | .commitOk _ _ => True
  | _ => False

attribute [simp] Phase.pc.eq_1 Phase.pc.eq_2 Phase.pc.eq_3 Phase.pc.eq_4 Phase.pc.eq_5 Phase.pc.eq_6 Phase.pc.eq_7 Phase.pc.eq_8 Phase.pc.eq_9
  Phase.pc.eq_10
attribute [simp] Phase.failed.eq_1 Phase.failed.eq_2
attribute [simp] Phase.req.eq_1 Phase.req.eq_2 Phase.req.eq_3
attribute [simp] Phase.rep.eq_1 Phase.rep.eq_2 Phase.rep.eq_3
attribute [simp] Phase.own.eq_1 Phase.own.eq_2 Phase.own.eq_3
attribute [simp] Phase.ans.eq_1 Phase.ans.eq_2 Phase.ans.eq_3
attribute [simp] Phase.ownLog.eq_1 Phase.ownLog.eq_2 Phase.ownLog.eq_3
attribute [simp] Phase.othLog.eq_1 Phase.othLog.eq_2 Phase.othLog.eq_3
attribute [simp] Phase.inCommit.eq_1 Phase.inCommit.eq_2 Phase.inCommit.eq_3 Phase.inCommit.eq_4 Phase.inCommit.eq_5

/-- The queues that are in use. -/
def used : Node → Node → Prop
  | .client c, .server s | .server s, .client c => c = s
  | .server s, .server t => t = peer s
  | .client _, .client _ => False

/-- **The phases of both requests explain the state.** -/
structure Ok {hash : List UInt8 → Nat} (σ : System hash) (ph : Side → Phase) : Prop where
  pc : ∀ c, σ.client c = (ph c).pc
  failed : ∀ c, σ.failed (.client c) = (ph c).failed
  alive : ∀ s, σ.failed (.server s) = none
  req : ∀ c, σ.chan (.client c) (.server c) = (ph c).req c
  rep : ∀ c, σ.chan (.server c) (.client c) = (ph c).rep c
  link : ∀ s, (σ.chan (.server s) (.server (peer s))).Perm ((ph s).own s ++ (ph (peer s)).ans s)
  quiet : ∀ src dst, ¬ used src dst → σ.chan src dst = []
  log : ∀ s, LogHolds (σ.srv s).logKey ((ph s).ownLog ++ (ph (peer s)).othLog)
  clientId : ∀ c, (ph c).inCommit → (σ.srv c).clientId = .client c
  distinct : ∀ c, ∀ k ∈ (ph c).othLog, k ∉ (ph (peer c)).ownLog ∧ k ∉ (ph (peer c)).othLog

/-! ## Sides -/

@[simp] theorem peer_peer (s : Side) : peer (peer s) = s := by
  revert s
  decide

@[simp] theorem peer_ne (s : Side) : peer s ≠ s := by
  revert s
  decide

@[simp] theorem ne_peer (s : Side) : s ≠ peer s := (peer_ne s).symm

/-- There are two sides. -/
theorem side_cases (c s : Side) : s = c ∨ s = peer c := by
  revert c s
  decide

section
variable {hash : List UInt8 → Nat} {σ σ' : System hash} {ph : Side → Phase} {c s : Side} {q : Phase} {m : McMsg} {rest : List McMsg}

/-- A request has one message to the other server under way at most, -/
theorem Phase.own_length (ph : Phase) (c : Side) : (ph.own c).length ≤ 1 := by
  cases ph <;> simp

/-- and one from it. -/
theorem Phase.ans_length (ph : Phase) (c : Side) : (ph.ans c).length ≤ 1 := by
  cases ph <;> simp

/-- Nothing is under way at the start. -/
theorem Ok.init : Ok (System.init : System hash) fun _ => .idle := by
  refine ⟨fun _ => rfl, fun _ => rfl, fun _ => rfl, fun _ => rfl, fun _ => rfl, fun _ => ?_, fun _ _ _ => rfl, fun _ => ?_, ?_, ?_⟩
  · exact List.Perm.refl _
  · exact LogHolds.init
  · exact fun c inside => inside.elim
  · exact fun c k inside => absurd inside (by simp)

/-- A queue that two requests may use. -/
def between (c : Side) (src dst : Node) : Prop :=
  src = .client c ∧ dst = .server c ∨ src = .server c ∧ dst = .client c ∨ src = .server c ∧ dst = .server (peer c) ∨
    src = .server (peer c) ∧ dst = .server c

/-- **One request moves on**, and what is of the other stays. -/
theorem Ok.move (ok : Ok σ ph)
    (client : σ'.client = Function.update σ.client c q.pc)
    (failed : σ'.failed = Function.update σ.failed (.client c) q.failed)
    (req : σ'.chan (.client c) (.server c) = q.req c)
    (rep : σ'.chan (.server c) (.client c) = q.rep c)
    (out : (σ'.chan (.server c) (.server (peer c))).Perm (q.own c ++ (ph (peer c)).ans c))
    (back : (σ'.chan (.server (peer c)) (.server c)).Perm ((ph (peer c)).own (peer c) ++ q.ans (peer c)))
    (others : ∀ src dst, ¬ between c src dst → σ'.chan src dst = σ.chan src dst)
    (log : LogHolds (σ'.srv c).logKey (q.ownLog ++ (ph (peer c)).othLog))
    (logPeer : LogHolds (σ'.srv (peer c)).logKey ((ph (peer c)).ownLog ++ q.othLog))
    (clientId : q.inCommit → (σ'.srv c).clientId = .client c)
    (clientIdPeer : (σ'.srv (peer c)).clientId = (σ.srv (peer c)).clientId)
    (distinct : ∀ k ∈ q.othLog, k ∉ (ph (peer c)).ownLog ∧ k ∉ (ph (peer c)).othLog)
    (distinctPeer : ∀ k ∈ (ph (peer c)).othLog, k ∉ q.ownLog ∧ k ∉ q.othLog) : Ok σ' (Function.update ph c q) := by
  constructor
  · intro t
    rcases side_cases c t with rfl | rfl
    · simp [client]
    · simp [client, ok.pc]
  · intro t
    rcases side_cases c t with rfl | rfl
    · simp [failed]
    · simp [failed, ok.failed]
  · intro t
    simp [failed, ok.alive]
  · intro t
    rcases side_cases c t with rfl | rfl
    · simp [req]
    · rw [others _ _ (by simp [between]), ok.req]
      simp
  · intro t
    rcases side_cases c t with rfl | rfl
    · simp [rep]
    · rw [others _ _ (by simp [between]), ok.rep]
      simp
  · intro t
    rcases side_cases c t with rfl | rfl
    · simpa using out
    · simpa using back
  · intro src dst unused
    rw [others src dst, ok.quiet src dst unused]
    rintro (⟨rfl, rfl⟩ | ⟨rfl, rfl⟩ | ⟨rfl, rfl⟩ | ⟨rfl, rfl⟩) <;> simp [used] at unused
  · intro t
    rcases side_cases c t with rfl | rfl
    · simpa using log
    · simpa using logPeer
  · intro t inside
    rcases side_cases c t with rfl | rfl
    · exact clientId (by simpa using inside)
    · rw [clientIdPeer]
      exact ok.clientId _ (by simpa using inside)
  · intro t
    rcases side_cases c t with rfl | rfl
    · simpa using distinct
    · simpa using distinctPeer

/-! ## Queues -/

@[simp] theorem setChan_chan (σ : System hash) (src dst : Node) (q : List McMsg) (a b : Node) :
    (σ.setChan src dst q).chan a b = if a = src ∧ b = dst then q else σ.chan a b := rfl

@[simp] theorem setChan_srv (σ : System hash) (src dst : Node) (q : List McMsg) : (σ.setChan src dst q).srv = σ.srv := rfl
@[simp] theorem setChan_client (σ : System hash) (src dst : Node) (q : List McMsg) : (σ.setChan src dst q).client = σ.client := rfl
@[simp] theorem setChan_failed (σ : System hash) (src dst : Node) (q : List McMsg) : (σ.setChan src dst q).failed = σ.failed := rfl
@[simp] theorem setChan_hist (σ : System hash) (src dst : Node) (q : List McMsg) : (σ.setChan src dst q).hist = σ.hist := rfl
@[simp] theorem setSrv_srv (σ : System hash) (s : Side) (st : Srv hash) : (σ.setSrv s st).srv = Function.update σ.srv s st := rfl
@[simp] theorem setSrv_chan (σ : System hash) (s : Side) (st : Srv hash) : (σ.setSrv s st).chan = σ.chan := rfl
@[simp] theorem setSrv_client (σ : System hash) (s : Side) (st : Srv hash) : (σ.setSrv s st).client = σ.client := rfl
@[simp] theorem setSrv_failed (σ : System hash) (s : Side) (st : Srv hash) : (σ.setSrv s st).failed = σ.failed := rfl
@[simp] theorem setSrv_hist (σ : System hash) (s : Side) (st : Srv hash) : (σ.setSrv s st).hist = σ.hist := rfl

/-- A message is put at the end of its queue, where there is room, -/
theorem rpcSend_eq {src dst : Node} (room : (σ.chan src dst).length ≤ 1) (m : McMsg) :
    σ.rpcSend src dst m = σ.setChan src dst (σ.chan src dst ++ [m]) := by
  rw [System.rpcSend, if_pos (by unfold McShare.msgNum; omega)]

/-- and taken from its beginning. -/
theorem rpcRecv_eq_some {src dst : Node} {σ₁ : System hash} (found : σ.rpcRecv src dst = some (m, σ₁)) :
    ∃ rest, σ.chan src dst = m :: rest ∧ σ₁ = σ.setChan src dst rest := by
  unfold System.rpcRecv at found
  split at found
  · cases found
  · rename_i m' rest queue
    simp only [Option.some.injEq, Prod.mk.injEq] at found
    obtain ⟨rfl, rfl⟩ := found
    exact ⟨rest, queue, rfl⟩

/-- What comes first in the queue between the servers belongs to one of the requests, and the rest to the other. -/
theorem Ok.link_cases (ok : Ok σ ph) (s : Side) (queue : σ.chan (.server s) (.server (peer s)) = m :: rest) :
    (ph s).own s = [m] ∧ rest.Perm ((ph (peer s)).ans s) ∨ (ph (peer s)).ans s = [m] ∧ rest.Perm ((ph s).own s) := by
  have link := ok.link s
  rw [queue] at link
  have member := link.mem_iff.mp List.mem_cons_self
  rcases List.mem_append.mp member with own | ans
  · have alone : (ph s).own s = [m] := by
      have short := (ph s).own_length s
      obtain ⟨x, single⟩ := List.length_eq_one_iff.mp (Nat.le_antisymm short (List.length_pos_of_mem own))
      rw [single, List.mem_singleton] at own
      rw [single, own]
    rw [alone] at link
    exact Or.inl ⟨alone, link.cons_inv⟩
  · have alone : (ph (peer s)).ans s = [m] := by
      have short := (ph (peer s)).ans_length s
      obtain ⟨x, single⟩ := List.length_eq_one_iff.mp (Nat.le_antisymm short (List.length_pos_of_mem ans))
      rw [single, List.mem_singleton] at ans
      rw [single, ans]
    rw [alone] at link
    exact Or.inr ⟨alone, (link.trans List.perm_append_comm).cons_inv⟩

end

end BiProject.TwoPc
