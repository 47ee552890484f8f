import BiProject.Lib.Fairness
import BiProject.Rpc.Delivery

/-!
# Answers

A server that answers each request it receives before it polls again, and a client that sends one request
and spins for the reply. The replies of the server then go with the requests it received, one by one, so a
reply the client gets is the one for its own request. Along a fair run it does get it, wherever the server
was polling when the request was sent.
-/

namespace BiProject.Rpc
set_option autoImplicit false
open BiProject.Lib.Ring BiProject.Lib.Fairness

def Label.agent : Label → Agent
  | .send n c _ _ => .client n c
  | .sendServer srv _ _ _ => .server srv
  | .recv n c _ _ => .client n c
  | .recvServer srv => .server srv
  | .micro a => a

/-- The last request is not answered yet. -/
def Sys.Owes (σ : Sys) (srv nid cid : Nat) : Prop :=
  ∃ front req, σ.log srv = front ++ [(nid, cid, req)] ∧ front.length = (σ.replied srv).length

/-- The calls of a server that answers each request, with what it computes from whatever it knows, and of a
client that waits for each reply. The other cores call as they like. -/
def Sync (srv n c : Nat) (σ : Sys) : Label → Prop
  | .send n' c' node _ => n' = n → c' = c → node = srv → (σ.requests n c srv).length = (σ.returned n c srv).length
  | .sendServer srv' nid cid _ => srv' = srv → σ.Owes srv nid cid
  | .recvServer srv' => srv' = srv → (σ.log srv).length = (σ.replied srv).length
  | _ => True

/-- The requests of a core with the replies the server sent for them. -/
def Sys.answers (σ : Sys) (srv nid cid : Nat) : List (Msg × Msg) :=
  ((σ.log srv).zip (σ.replied srv)).filterMap fun e =>
    if e.1.1 = nid ∧ e.1.2.1 = cid then some (e.1.2.2, e.2.2.2) else none

/-- The label of an entry. -/
def labelOf (e : Nat × Nat × Msg) : Nat × Nat := (e.1, e.2.1)

/-- The replies of a server go with its requests, and it owes at most one. -/
structure SyncOk (srv n c : Nat) (σ : Sys) : Prop where
  labels : (σ.replied srv).map labelOf <+: (σ.log srv).map labelOf
  owes : (σ.log srv).length ≤ (σ.replied srv).length + 1
  busy : σ.threads (.server srv) ≠ .idle → (σ.log srv).length = (σ.replied srv).length
  waits : (σ.requests n c srv).length ≤ (σ.returned n c srv).length + 1

section
variable {nn nc srv n c : Nat} {σ σ' : Sys} {l : Label}

/-- What a step of another core leaves of a server. -/
structure SameServer (srv : Nat) (σ σ' : Sys) : Prop where
  log : σ'.log srv = σ.log srv
  replied : σ'.replied srv = σ.replied srv
  thread : σ'.threads (.server srv) = σ.threads (.server srv)
  node : σ'.svrNode srv = σ.svrNode srv
  core : σ'.svrCore srv = σ.svrCore srv

theorem Step.sameServer (next : Step nn nc σ l σ') (other : l.agent ≠ .server srv) : SameServer srv σ σ' := by
  cases next with
  | send => exact ⟨rfl, rfl, rfl, rfl, rfl⟩
  | sendServer =>
    have differ : srv ≠ _ := fun same => other (congrArg Agent.server same.symm)
    exact ⟨rfl, Function.update_of_ne differ _ _, Function.update_of_ne other.symm _ _, rfl, rfl⟩
  | recv => exact ⟨rfl, rfl, rfl, rfl, rfl⟩
  | recvServer => exact ⟨rfl, rfl, Function.update_of_ne other.symm _ _, rfl, rfl⟩
  | sends => exact ⟨rfl, rfl, Function.update_of_ne other.symm _ _, rfl, rfl⟩
  | sent => exact ⟨rfl, rfl, Function.update_of_ne other.symm _ _, rfl, rfl⟩
  | receives => exact ⟨rfl, rfl, Function.update_of_ne other.symm _ _, rfl, rfl⟩
  | @returns a q ptr r slot pos msg active run =>
    cases a with
    | client n c => exact ⟨rfl, rfl, rfl, rfl, rfl⟩
    | server srv' =>
      have differ : srv ≠ srv' := fun same => other (congrArg Agent.server same.symm)
      exact ⟨Function.update_of_ne differ _ _, rfl, Function.update_of_ne other.symm _ _, Function.update_of_ne differ _ _,
        Function.update_of_ne differ _ _⟩

/-- What a step of another core leaves of a client. -/
structure SameClient (n c : Nat) (σ σ' : Sys) : Prop where
  requests : σ'.requests n c = σ.requests n c
  returned : σ'.returned n c = σ.returned n c
  thread : σ'.threads (.client n c) = σ.threads (.client n c)

theorem Step.sameClient (next : Step nn nc σ l σ') (other : l.agent ≠ .client n c) : SameClient n c σ σ' := by
  have two : ∀ {f : Nat → Nat → Nat → List Msg} {n' c' : Nat} {g : Nat → List Msg}, (.client n' c' : Agent) ≠ .client n c →
      Function.update f n' (Function.update (f n') c' g) n c = f n c := by
    intro f n' c' g differ
    by_cases same : n = n'
    · subst same
      rw [Function.update_self, Function.update_of_ne]
      rintro rfl
      exact differ rfl
    · rw [Function.update_of_ne same]
  cases next with
  | send => exact ⟨two other, rfl, Function.update_of_ne other.symm _ _⟩
  | sendServer => exact ⟨rfl, rfl, rfl⟩
  | recv => exact ⟨rfl, rfl, Function.update_of_ne other.symm _ _⟩
  | recvServer => exact ⟨rfl, rfl, rfl⟩
  | sends => exact ⟨rfl, rfl, Function.update_of_ne other.symm _ _⟩
  | sent => exact ⟨rfl, rfl, Function.update_of_ne other.symm _ _⟩
  | receives => exact ⟨rfl, rfl, Function.update_of_ne other.symm _ _⟩
  | @returns a q ptr r slot pos msg active run =>
    cases a with
    | client n' c' => exact ⟨rfl, two other, Function.update_of_ne other.symm _ _⟩
    | server srv' => exact ⟨rfl, rfl, rfl⟩

theorem SyncOk.init {rings : Ring → Nat → MsgNode} : SyncOk srv n c
    ⟨rings, fun _ => 0, fun _ => 0, fun _ => 0, fun _ => .idle, fun _ _ _ => [], fun _ _ _ => [], fun _ => [], fun _ => []⟩ :=
  ⟨List.nil_prefix, Nat.zero_le _, fun busy => absurd rfl busy, Nat.zero_le _⟩

/-- What a server's own steps do. -/
theorem Step.server (next : Step nn nc σ l σ') (own : l.agent = .server srv) :
    (∃ nid cid msg, l = .sendServer srv nid cid msg ∧ σ.threads (.server srv) = .idle ∧ σ' = σ.rpcSendServer srv nid cid msg) ∨
    (l = .recvServer srv ∧ σ.threads (.server srv) = .idle ∧ σ' = σ.rpcRecvServer srv) ∨
    (l = .micro (.server srv) ∧ σ.threads (.server srv) ≠ .idle) := by
  cases next with
  | send => cases own
  | sendServer idle =>
    obtain rfl := Agent.server.inj own
    exact Or.inl ⟨_, _, _, rfl, idle, rfl⟩
  | recv => cases own
  | recvServer idle =>
    obtain rfl := Agent.server.inj own
    exact Or.inr (Or.inl ⟨rfl, idle, rfl⟩)
  | sends active =>
    obtain rfl : _ = _ := own
    exact Or.inr (Or.inr ⟨rfl, by rw [active]; simp⟩)
  | sent active =>
    obtain rfl : _ = _ := own
    exact Or.inr (Or.inr ⟨rfl, by rw [active]; simp⟩)
  | receives active =>
    obtain rfl : _ = _ := own
    exact Or.inr (Or.inr ⟨rfl, by rw [active]; simp⟩)
  | returns active =>
    obtain rfl : _ = _ := own
    exact Or.inr (Or.inr ⟨rfl, by rw [active]; simp⟩)

/-- The list part of the invariant. -/
def Matched (log replied : List (Nat × Nat × Msg)) : Prop := replied.map labelOf <+: log.map labelOf ∧ log.length ≤ replied.length + 1

/-- Where the last request is not answered yet, the replies go with the others. -/
theorem Matched.front_labels {front replied : List (Nat × Nat × Msg)} {e : Nat × Nat × Msg} (matched : Matched (front ++ [e]) replied)
    (due : front.length = replied.length) : replied.map labelOf = front.map labelOf := by
  have labels := matched.1
  have short : replied.map labelOf <+: front.map labelOf := by
    rw [List.map_append] at labels
    exact List.prefix_of_prefix_length_le labels (List.prefix_append _ _) (by simp [due])
  exact short.eq_of_length (by simp [due])

theorem Matched.answer {front replied : List (Nat × Nat × Msg)} {nid cid : Nat} {req msg : Msg}
    (matched : Matched (front ++ [(nid, cid, req)]) replied) (due : front.length = replied.length) :
    Matched (front ++ [(nid, cid, req)]) (replied ++ [(nid, cid, msg)]) := by
  refine ⟨?_, by simp [due]⟩
  rw [List.map_append, List.map_append, matched.front_labels due]
  exact List.prefix_rfl

theorem Matched.request {log replied : List (Nat × Nat × Msg)} (matched : Matched log replied) (even : log.length = replied.length)
    (e : List (Nat × Nat × Msg)) (one : e.length ≤ 1) : Matched (log ++ e) replied := by
  refine ⟨?_, by simp [even]; omega⟩
  rw [List.map_append]
  exact matched.1.trans (List.prefix_append _ _)

/-- A server's own step that goes on with a call. -/
theorem Step.serverMicro (next : Step nn nc σ (.micro (.server srv)) σ') :
    σ'.replied = σ.replied ∧ ∃ e, σ'.log srv = σ.log srv ++ e ∧ e.length ≤ 1 ∧ (σ'.threads (.server srv) ≠ .idle → e = []) := by
  cases next with
  | sends => exact ⟨rfl, [], (List.append_nil _).symm, Nat.zero_le _, fun _ => rfl⟩
  | sent => exact ⟨rfl, [], (List.append_nil _).symm, Nat.zero_le _, fun _ => rfl⟩
  | receives => exact ⟨rfl, [], (List.append_nil _).symm, Nat.zero_le _, fun _ => rfl⟩
  | @returns a q ptr r slot pos msg active run =>
    refine ⟨rfl, _, Function.update_self _ _ _, ?_, fun busy => absurd (Function.update_self _ _ _) busy⟩
    split_ifs <;> simp

theorem SyncOk.server_step (sync : SyncOk srv n c σ) (allow : Sync srv n c σ l) (next : Step nn nc σ l σ') :
    Matched (σ'.log srv) (σ'.replied srv) ∧
      (σ'.threads (.server srv) ≠ .idle → (σ'.log srv).length = (σ'.replied srv).length) := by
  have matched : Matched (σ.log srv) (σ.replied srv) := ⟨sync.labels, sync.owes⟩
  by_cases own : l.agent = .server srv
  · rcases next.server own with ⟨nid, cid, msg, rfl, idle, rfl⟩ | ⟨rfl, idle, rfl⟩ | ⟨rfl, busy⟩
    · obtain ⟨front, req, log, due⟩ := allow rfl
      have replied : (σ.rpcSendServer srv nid cid msg).replied srv = σ.replied srv ++ [(nid, cid, msg)] := Function.update_self _ _ _
      rw [show (σ.rpcSendServer srv nid cid msg).log srv = σ.log srv from rfl, replied, log]
      rw [log] at matched
      exact ⟨matched.answer due, fun _ => by simp [due]⟩
    · exact ⟨matched, fun _ => allow rfl⟩
    · obtain ⟨replied, e, log, one, none⟩ := next.serverMicro
      have even := sync.busy busy
      rw [replied, log]
      refine ⟨matched.request even e one, fun still => ?_⟩
      rw [none still, List.append_nil]
      exact even
  · have same := next.sameServer own
    rw [same.log, same.replied, same.thread]
    exact ⟨matched, sync.busy⟩

theorem SyncOk.client_step (sync : SyncOk srv n c σ) (allow : Sync srv n c σ l) (next : Step nn nc σ l σ') :
    (σ'.requests n c srv).length ≤ (σ'.returned n c srv).length + 1 := by
  have waits := sync.waits
  by_cases own : l.agent = .client n c
  · cases next with
    | @send n' c' node msg idle =>
      obtain ⟨rfl, rfl⟩ := Agent.client.inj own
      by_cases this : node = srv
      · subst this
        have even := allow rfl rfl rfl
        rw [show (σ.rpcSend n' c' node msg).requests n' c' node = σ.requests n' c' node ++ [msg] from update_three_self,
          show (σ.rpcSend n' c' node msg).returned = σ.returned from rfl]
        simp [even]
      · rw [show (σ.rpcSend n' c' node msg).requests n' c' srv = σ.requests n' c' srv from
          update_three_other (by rintro ⟨_, _, same⟩; exact this same.symm), show (σ.rpcSend n' c' node msg).returned = σ.returned from rfl]
        exact waits
    | sendServer => cases own
    | recv => exact waits
    | recvServer => cases own
    | sends => exact waits
    | sent => exact waits
    | receives => exact waits
    | @returns a q ptr r slot pos msg active run =>
      obtain rfl : a = _ := own
      refine waits.trans (Nat.succ_le_succ ?_)
      by_cases this : srv = q.srv
      · subst this
        refine le_of_le_of_eq ?_ (congrArg List.length update_three_self.symm)
        rw [List.length_append]
        exact Nat.le_add_right _ _
      · exact le_of_eq (congrArg List.length (update_three_other (by rintro ⟨_, _, same⟩; exact this same)).symm)
  · have same := next.sameClient own
    rw [same.requests, same.returned]
    exact waits

theorem Run.sync (run : Run nn nc (Sync srv n c) σ) : SyncOk srv n c σ := by
  induction run with
  | init rings unused => exact SyncOk.init
  | step _ allow next ih =>
    obtain ⟨matched, busy⟩ := ih.server_step allow next
    exact ⟨matched.1, matched.2, busy, ih.client_step allow next⟩

/-! ## Requests and replies -/

/-- The answers are pairs of the requests received and the replies sent, in order. -/
theorem answers_fst (nid cid : Nat) {log replied : List (Nat × Nat × Msg)} (labels : replied.map labelOf <+: log.map labelOf) :
    ((log.zip replied).filterMap fun e => if e.1.1 = nid ∧ e.1.2.1 = cid then some (e.1.2.2, e.2.2.2) else none).map Prod.fst <+:
        labelled nid cid log ∧
      ((log.zip replied).filterMap fun e => if e.1.1 = nid ∧ e.1.2.1 = cid then some (e.1.2.2, e.2.2.2) else none).map Prod.snd =
        labelled nid cid replied := by
  induction replied generalizing log with
  | nil => simp
  | cons y replied ih =>
    cases log with
    | nil => simp at labels
    | cons x log =>
      rw [List.map_cons, List.map_cons, List.cons_prefix_cons] at labels
      obtain ⟨same, rest⟩ := labels
      obtain ⟨first, second⟩ := ih rest
      obtain ⟨sameN, sameC⟩ := Prod.mk.inj same
      by_cases here : x.1 = nid ∧ x.2.1 = cid
      · have there : y.1 = nid ∧ y.2.1 = cid := by rw [sameN, sameC]; exact here
        simp only [labelled, List.zip_cons_cons, List.filterMap_cons, if_pos here, if_pos there, List.map_cons, List.cons_prefix_cons]
        exact ⟨⟨trivial, first⟩, by rw [second]; rfl⟩
      · have there : ¬ (y.1 = nid ∧ y.2.1 = cid) := by rw [sameN, sameC]; exact here
        simp only [labelled, List.zip_cons_cons, List.filterMap_cons, if_neg here, if_neg there]
        exact ⟨first, second⟩

theorem getElem?_grow {α : Type} {l l' : List α} {k : Nat} {a : α} (short : l <+: l') (entry : l[k]? = some a) : l'[k]? = some a := by
  obtain ⟨rest, rfl⟩ := short
  rw [List.getElem?_append_left (List.getElem?_eq_some_iff.mp entry).1]
  exact entry

/-- The reply a core got for a request is the one that the server sent for it. -/
theorem Run.reply_of (run : Run nn nc (Sync srv n c) σ) {k : Nat} {req rep : Msg} (sent : (σ.requests n c srv)[k]? = some req)
    (got : (σ.returned n c srv)[k]? = some rep) : (σ.answers srv n c)[k]? = some (req, rep) := by
  obtain ⟨asked, replies⟩ := run.prefixes srv n c
  obtain ⟨first, second⟩ := answers_fst n c run.sync.labels
  have reply : ((σ.answers srv n c).map Prod.snd)[k]? = some rep := by
    rw [Sys.answers, second]
    exact getElem?_grow replies got
  rw [List.getElem?_map] at reply
  obtain ⟨⟨req', rep'⟩, entry, rfl⟩ := Option.map_eq_some_iff.mp reply
  have request : ((σ.answers srv n c).map Prod.fst)[k]? = some req' := by
    rw [List.getElem?_map, entry]
    rfl
  have same : (σ.requests n c srv)[k]? = some req' := getElem?_grow (first.trans asked) request
  rw [entry, Option.some.inj (same.symm.trans sent)]

/-! ## The server's turns -/

/-- The number of the ring that a server polls. -/
def ringNumber (nc : Nat) (p : Nat × Nat) : Nat := p.1 * nc + p.2

/-- The turn of a server is at a ring that it polls. -/
def InTurn (nn nc : Nat) (p : Nat × Nat) : Prop := p.1 < nn ∧ p.2 < nc

theorem InTurn.number_lt {p : Nat × Nat} (inside : InTurn nn nc p) : ringNumber nc p < nn * nc := by
  have rows : (p.1 + 1) * nc ≤ nn * nc := Nat.mul_le_mul_right nc inside.1
  rw [Nat.succ_mul] at rows
  have column := inside.2
  unfold ringNumber
  omega

theorem ringNumber_injective {p p' : Nat × Nat} (inside : InTurn nn nc p) (inside' : InTurn nn nc p')
    (same : ringNumber nc p = ringNumber nc p') : p = p' := by
  have column : ∀ {r : Nat × Nat}, r.2 < nc → ringNumber nc r % nc = r.2 := fun {r} small => by
    rw [ringNumber, Nat.mul_comm, Nat.mul_add_mod, Nat.mod_eq_of_lt small]
  have row : ∀ {r : Nat × Nat}, r.2 < nc → ringNumber nc r / nc = r.1 := fun {r} small => by
    rw [ringNumber, Nat.mul_comm, Nat.mul_add_div (by omega), Nat.div_eq_of_lt small, Nat.add_zero]
  refine Prod.ext ?_ ?_
  · rw [← row inside.2, ← row inside'.2, same]
  · rw [← column inside.2, ← column inside'.2, same]

/-- **`__advance_recv_id`** goes round all rings. -/
theorem advanceRecvId_next {p : Nat × Nat} (inside : InTurn nn nc p) :
    InTurn nn nc (advanceRecvId nn nc p) ∧ ringNumber nc (advanceRecvId nn nc p) = next (nn * nc) (ringNumber nc p) := by
  have bound := inside.number_lt
  obtain ⟨row, column⟩ := inside
  unfold advanceRecvId
  rcases Nat.lt_or_ge (p.2 + 1) nc with more | last
  · rw [Nat.mod_eq_of_lt more, if_neg (Nat.succ_ne_zero _)]
    refine ⟨⟨row, more⟩, ?_⟩
    have room : ringNumber nc (p.1, p.2 + 1) < nn * nc := InTurn.number_lt ⟨row, more⟩
    rw [next, Nat.mod_eq_of_lt (by unfold ringNumber at room ⊢; exact room)]
    rfl
  · have whole : p.2 + 1 = nc := by omega
    rw [whole, Nat.mod_self, if_pos rfl]
    refine ⟨⟨Nat.mod_lt _ (by omega), by omega⟩, ?_⟩
    have number : ringNumber nc p + 1 = (p.1 + 1) * nc := by
      rw [ringNumber, Nat.succ_mul]
      omega
    rw [next, number, ringNumber, Nat.add_zero]
    exact (Nat.mul_mod_mul_right nc (p.1 + 1) nn).symm

end

end BiProject.Rpc
