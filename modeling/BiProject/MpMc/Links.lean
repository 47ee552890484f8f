import BiProject.MpMc.System
import Mathlib.Data.List.Forall2
import Mathlib.Data.Option.Basic

/-!
# A client and a server

A pair has one message under way at a time: a request that is written, queued, taken and answered, or an MC_BEGIN or
MC_EXIT that is due. Where it is can be told from what the two nodes do. Every step of the system moves the message of
one pair on, and each message is handled with what it held when it was sent.
-/

namespace BiProject.MpMc
set_option autoImplicit false
open BiProject.McServer BiProject.Lib

/-- What a client does for a server, -/
def Pc.toward (pc : Pc) (s : ServerNode) : Option Pc :=
  match pc with
  | .sends node _ | .waits node _ | .reads node _ _ | .controls node => if node = s then some pc else none
  | .rest | .failed => none

/-- and what a server does for a client. -/
def SrvPc.toward (spc : SrvPc) (c : ClientNode) : Option SrvPc :=
  match spc with
  | .took d | .answers d _ => if d = c then some spc else none
  | .polls | .failed => none

/-- An answer to a call. -/
def Answer.fits (s : ServerNode) : Op → Answer → Prop
  | .get _, .getOk id _ | .get _, .getFail id | .set _, .setOk id | .set _, .setFail id => id = s
  | _, _ => False

def Request.op : Request → Option Op
  | .get _ key => some (.get key)
  | .set _ key _ => some (.set key)
  | _ => none

@[simp] theorem request_op (c : ClientNode) (op : Op) : (op.request c).op = some op := by
  cases op <;> rfl

/-- The calls among the messages that were handled. -/
def callsOf (handled : List (Option Request)) : List Op := handled.filterMap fun m => m.bind Request.op

/-- A message that is sent belongs to the call that the client waits in, or is due. -/
def Asks (c : ClientNode) (s : ServerNode) (due : Option Request) (pc : Option Pc) (m : Request) : Prop :=
  (due = none ∧ ∃ op, pc = some (.waits s op) ∧ m = op.request c) ∨ (due = some m ∧ pc = none ∧ m.op = none)

/-- One that is written belongs to a call, or comes next in the client's program. -/
def Writes (c : ClientNode) (s : ServerNode) (next : Option (ServerNode × Request)) (pc : Option Pc) (m : Request) : Prop :=
  (∃ op, pc = some (.sends s op) ∧ m = op.request c) ∨ (next = some (s, m) ∧ pc = some (.controls s) ∧ m.op = none)

/-- Where the message of a pair is. -/
inductive Link (c : ClientNode) (s : ServerNode) (due : Option Request) (next : Option (ServerNode × Request))
    (q : Mailbox Request) (r : Mailbox Answer) : Option Pc → Option SrvPc → Prop
  | quiet (nothing : due = none) (empty : q.flight = []) (silent : r.flight = []) : Link c s due next q r none none
  | written {pc : Option Pc} (m : Request) (nothing : due = none) (writes : Writes c s next pc m) (empty : q.inUse = [])
      (draft : q.draft = some m) (silent : r.flight = []) : Link c s due next q r pc none
  | queued {pc : Option Pc} (m : Request) (b : Nat) (asks : Asks c s due pc m) (queue : q.queue = [b]) (untaken : q.taken = none)
      (unwritten : q.written = none) (holds : q.buf b = some m) (silent : r.flight = []) : Link c s due next q r pc none
  | taken {pc : Option Pc} (m : Request) (asks : Asks c s due pc m) (queue : q.queue = []) (unwritten : q.written = none)
      (unseen : q.seen = false) (holds : q.content = some m) (silent : r.flight = []) : Link c s due next q r pc (some (.took c))
  | answering (op : Op) (a : Answer) (nothing : due = none) (queue : q.queue = []) (unwritten : q.written = none)
      (seen : q.seen = true) (quiet : r.inUse = []) (draft : r.draft = some a) (fits : a.fits s op) :
      Link c s due next q r (some (.waits s op)) (some (.answers c c))
  | answered (op : Op) (a : Answer) (b : Nat) (nothing : due = none) (empty : q.flight = []) (queue : r.queue = [b])
      (untaken : r.taken = none) (unwritten : r.written = none) (holds : r.buf b = some a) (fits : a.fits s op) :
      Link c s due next q r (some (.waits s op)) none
  | read (op : Op) (a : Answer) (nothing : due = none) (empty : q.flight = []) (queue : r.queue = []) (unwritten : r.written = none)
      (unseen : r.seen = false) (holds : r.content = some a) (fits : a.fits s op) :
      Link c s due next q r (some (.reads s op s)) none

/-- A call and its answer. -/
def Replied (s : ServerNode) (op : Op) (a : Option Answer) : Prop := ∃ x, a = some x ∧ x.fits s op

/-- **A client and a server**: where their message is, and that each call that was handled has its answer. -/
structure Pair (c : ClientNode) (s : ServerNode) (due : Option Request) (next : Option (ServerNode × Request))
    (pc : Option Pc) (spc : Option SrvPc) (q : Mailbox Request) (r : Mailbox Answer) : Prop where
  req : Mailbox.Ok 1 q
  rep : Mailbox.Ok 1 r
  link : Link c s due next q r pc spc
  replies : List.Forall₂ (Replied s) (callsOf q.handled) (r.sent ++ r.written.toList.map r.buf)

section
variable {c : ClientNode} {s : ServerNode} {due due' : Option Request} {next next' : Option (ServerNode × Request)} {pc pc' : Option Pc}
  {spc : Option SrvPc} {q : Mailbox Request} {r : Mailbox Answer} {m : Request} {a : Answer} {op : Op}

theorem flight_nil {M : Type} {p : Mailbox M} (empty : p.flight = []) : p.inUse = [] ∧ p.written = none := by
  simpa [Mailbox.flight] using empty

theorem inUse_nil {M : Type} {p : Mailbox M} (empty : p.inUse = []) : p.taken = none ∧ p.queue = [] := by
  simpa [Mailbox.inUse] using empty

/-- Between two calls, with nothing due, nothing is under way. -/
theorem Pair.rests (pair : Pair c s none next none spc q r) : q.flight = [] ∧ r.flight = [] ∧ spc = none := by
  cases pair.link with
  | quiet _ empty silent => exact ⟨empty, silent, rfl⟩
  | written _ _ writes => simp [Writes] at writes
  | queued _ _ asks => simp [Asks] at asks
  | taken _ asks => simp [Asks] at asks

/-- The client writes a message, -/
theorem Pair.write (pair : Pair c s none next none spc q r) (writes : Writes c s next' pc m) :
    Pair c s none next' pc spc (q.write 1 m) r := by
  obtain ⟨empty, silent, rfl⟩ := pair.rests
  obtain ⟨unused, unwritten⟩ := flight_nil empty
  refine ⟨pair.req.write (by simp [empty]) unwritten m, pair.rep, .written m rfl writes ?_ (Mailbox.write_draft 1 m q) silent, pair.replies⟩
  rw [Mailbox.write_inUse, unused]

/-- has room for it in its queue, -/
theorem Pair.writing {x : Pc} (pair : Pair c s due next (some x) spc q r) (writes : x = .controls s ∨ ∃ op, x = .sends s op) :
    due = none ∧ hasRoom q = true ∧ q.written ≠ none ∧ spc = none := by
  cases pair.link with
  | written m nothing _ empty draft =>
    obtain ⟨b, here, _⟩ := Option.bind_eq_some_iff.mp draft
    refine ⟨nothing, ?_, by simp [here], rfl⟩
    rw [hasRoom, (inUse_nil empty).2]
    rfl
  | queued _ _ asks => grind [Asks]
  | taken _ asks => grind [Asks]
  | answering => simp at writes
  | answered => simp at writes
  | read => simp at writes

theorem Pair.cause (pair : Pair c s due next (some (.controls s)) spc q r) : ∃ m, next = some (s, m) := by
  cases pair.link with
  | written m _ writes => exact ⟨m, (writes.resolve_left (by simp)).1⟩
  | queued _ _ asks => simp [Asks] at asks
  | taken _ asks => simp [Asks] at asks

/-- sends it, -/
theorem Pair.send (pair : Pair c s due next pc spc q r) (written : q.written ≠ none)
    (asks : ∀ m, Writes c s next pc m → Asks c s due' pc' m) : Pair c s due' next' pc' spc q.send r := by
  cases pair.link with
  | written m _ writes empty draft silent =>
    obtain ⟨b, here, holds⟩ := Option.bind_eq_some_iff.mp draft
    obtain ⟨untaken, queue⟩ := inUse_nil empty
    refine ⟨pair.req.send, pair.rep, .queued m b (asks m writes) ?_ untaken rfl holds silent, pair.replies⟩
    simp [Mailbox.send, queue, here]
  | quiet _ empty => exact absurd (flight_nil empty).2 written
  | answered _ _ _ _ empty => exact absurd (flight_nil empty).2 written
  | read _ _ _ empty => exact absurd (flight_nil empty).2 written
  | queued _ _ _ _ _ unwritten => exact absurd unwritten written
  | taken _ _ _ unwritten => exact absurd unwritten written
  | answering _ _ _ _ unwritten => exact absurd unwritten written

/-- and the server takes it. -/
theorem Pair.take (pair : Pair c s due next pc none q r) (more : q.queue ≠ []) :
    Pair c s due next pc (some (.took c)) q.recv r := by
  cases pair.link with
  | queued m b asks queue untaken unwritten holds silent =>
    refine ⟨pair.req.recv untaken, pair.rep, .taken m asks ?_ unwritten rfl ?_ silent, pair.replies⟩
    · simp [Mailbox.recv, queue]
    · simp [Mailbox.recv, Mailbox.content, queue, holds]
  | quiet _ empty => exact absurd (inUse_nil (flight_nil empty).1).2 more
  | written _ _ _ empty => exact absurd (inUse_nil empty).2 more
  | answered _ _ _ _ empty => exact absurd (inUse_nil (flight_nil empty).1).2 more
  | read _ _ _ empty => exact absurd (inUse_nil (flight_nil empty).1).2 more

/-- What the server took is the message that was asked. -/
theorem Pair.took (pair : Pair c s due next pc (some (.took c)) q r) :
    ∃ m, Asks c s due pc m ∧ q.content = some m ∧ q.seen = false ∧ q.queue = [] ∧ q.written = none ∧ r.flight = [] := by
  cases pair.link with
  | taken m asks queue unwritten unseen holds silent => exact ⟨m, asks, holds, unseen, queue, unwritten, silent⟩

theorem callsOf_read (q : Mailbox Request) (holds : q.content = some m) :
    callsOf q.read.handled = callsOf q.handled ++ m.op.toList := by
  cases here : m.op <;> simp [callsOf, Mailbox.read, holds, here]

/-- It handles MC_BEGIN or MC_EXIT, which is not due any more, -/
theorem Pair.control (pair : Pair c s due next pc (some (.took c)) q r) (holds : q.content = some m) (control : m.op = none) :
    Pair c s none next pc none q.read.finish r := by
  obtain ⟨m', asks, holds', unseen, queue, unwritten, silent⟩ := pair.took
  obtain rfl : m = m' := Option.some.inj (holds.symm.trans holds')
  obtain ⟨b, taken, _⟩ := Option.bind_eq_some_iff.mp holds
  obtain ⟨_, op, _, rfl⟩ | ⟨rfl, rfl, _⟩ := asks
  · simp at control
  · refine ⟨(pair.req.read taken unseen).finish rfl, pair.rep, .quiet rfl ?_ silent, ?_⟩
    · simp [Mailbox.flight, Mailbox.inUse, Mailbox.read, Mailbox.finish, queue, unwritten]
    · have same : callsOf q.read.handled = callsOf q.handled := by simp [callsOf_read q holds, control]
      change List.Forall₂ _ (callsOf q.read.handled) _
      rw [same]
      exact pair.replies

/-- A turn for a request. -/
theorem eventLoop_request {hash : List UInt8 → Nat} {slab : Slab} (s : ServerNode) (st : Srv hash slab) (c : ClientNode) (op : Op) :
    ∃ st' a, eventLoop s st (op.request c) = (st', some (c, a)) ∧ a.fits s op ∧ st'.loading = st.loading ∧ st'.e = st.e := by
  cases op with
  | get key =>
    have loading := st.cache.handle_keeps (show (Msg.get key).Admissible from key.2) (by simp)
    rcases st.cache.handle_get key with ⟨data, reply⟩ | reply
    · refine ⟨{ st with cache := (st.cache.handle (.get key) key.2).2 }, .getOk s data, ?_, rfl, loading, rfl⟩
      simp [eventLoop, Op.request, reply, answerOf]
    · refine ⟨{ st with cache := (st.cache.handle (.get key) key.2).2 }, .getFail s, ?_, rfl, loading, rfl⟩
      simp [eventLoop, Op.request, reply, answerOf]
  | set key =>
    have loading := st.cache.handle_keeps (show (Msg.set key dollars).Admissible from ⟨key.2, dollars.2⟩) (by simp)
    rcases st.cache.handle_set key dollars with reply | reply
    · refine ⟨{ st with cache := (st.cache.handle (.set key dollars) ⟨key.2, dollars.2⟩).2 }, .setOk s, ?_, rfl, loading, rfl⟩
      simp [eventLoop, Op.request, reply, answerOf]
    · refine ⟨{ st with cache := (st.cache.handle (.set key dollars) ⟨key.2, dollars.2⟩).2 }, .setFail s, ?_, rfl, loading, rfl⟩
      simp [eventLoop, Op.request, reply, answerOf]

/-- or a request, and writes its answer, -/
theorem Pair.handle (pair : Pair c s due next pc (some (.took c)) q r) (holds : q.content = some m) (call : m.op = some op)
    (fits : a.fits s op) : Pair c s due next pc (some (.answers c c)) q.read (r.write 1 a) := by
  obtain ⟨m', asks, holds', unseen, queue, unwritten, silent⟩ := pair.took
  obtain rfl : m = m' := Option.some.inj (holds.symm.trans holds')
  obtain ⟨b, taken, _⟩ := Option.bind_eq_some_iff.mp holds
  obtain ⟨unused, unanswered⟩ := flight_nil silent
  obtain ⟨rfl, op', rfl, rfl⟩ | ⟨_, _, control⟩ := asks
  · obtain rfl : op' = op := by simpa using call
    refine ⟨pair.req.read taken unseen, pair.rep.write (by simp [silent]) unanswered a,
      .answering op' a rfl queue unwritten rfl ?_ (Mailbox.write_draft 1 a r) fits, ?_⟩
    · rw [Mailbox.write_inUse, unused]
    · rw [callsOf_read q holds, request_op]
      have before := pair.replies
      rw [unanswered] at before
      change List.Forall₂ _ (callsOf q.handled ++ [op']) (r.sent ++ [(r.write 1 a).buf (r.idx % 1)])
      refine List.rel_append (by simpa using before) (.cons ⟨a, ?_, fits⟩ .nil)
      simp [Mailbox.write]
  · rw [control] at call
    cases call

/-- has room for it in its queue, -/
theorem Pair.answers {dst : ClientNode} (pair : Pair c s due next pc (some (.answers c dst)) q r) : dst = c ∧ hasRoom r = true := by
  cases pair.link with
  | answering _ _ _ _ _ _ quiet =>
    refine ⟨rfl, ?_⟩
    rw [hasRoom, (inUse_nil quiet).2]
    rfl

/-- and sends it. -/
theorem Pair.reply (pair : Pair c s due next pc (some (.answers c c)) q r) : Pair c s due next pc none q.finish r.send := by
  cases pair.link with
  | answering op a nothing queue unwritten seen quiet draft fits =>
    obtain ⟨b, here, holds⟩ := Option.bind_eq_some_iff.mp draft
    obtain ⟨untaken, empty⟩ := inUse_nil quiet
    refine ⟨pair.req.finish seen, pair.rep.send, .answered op a b nothing ?_ ?_ untaken rfl holds fits, ?_⟩
    · simp [Mailbox.flight, Mailbox.inUse, Mailbox.finish, queue, unwritten]
    · simp [Mailbox.send, empty, here]
    · have before := pair.replies
      simpa [Mailbox.send, Mailbox.finish] using before

/-- The client takes the answer to the call it waits in, -/
theorem Pair.recv (pair : Pair c s due next pc spc q r) (more : r.queue ≠ []) :
    ∃ op, pc = some (.waits s op) ∧ spc = none ∧ Pair c s due next (some (.reads s op s)) none q r.recv := by
  cases pair.link with
  | answered op a b nothing empty queue untaken unwritten holds fits =>
    refine ⟨op, rfl, rfl, pair.req, pair.rep.recv untaken, .read op a nothing empty ?_ unwritten rfl ?_ fits, pair.replies⟩
    · simp [Mailbox.recv, queue]
    · simp [Mailbox.recv, Mailbox.content, queue, holds]
  | quiet _ _ silent => exact absurd (inUse_nil (flight_nil silent).1).2 more
  | written _ _ _ _ _ silent => exact absurd (inUse_nil (flight_nil silent).1).2 more
  | queued _ _ _ _ _ _ _ silent => exact absurd (inUse_nil (flight_nil silent).1).2 more
  | taken _ _ _ _ _ _ silent => exact absurd (inUse_nil (flight_nil silent).1).2 more
  | answering _ _ _ _ _ _ quiet => exact absurd (inUse_nil quiet).2 more
  | read _ _ _ _ queue => exact absurd queue more

theorem Pair.reads {src : ServerNode} (pair : Pair c s due next (some (.reads s op src)) spc q r) : src = s := by
  cases pair.link with
  | written _ _ writes => simp [Writes] at writes
  | queued _ _ asks => simp [Asks] at asks
  | taken _ asks => simp [Asks] at asks
  | read => rfl

/-- and reads it. -/
theorem Pair.answer (pair : Pair c s due next (some (.reads s op s)) spc q r) :
    due = none ∧ spc = none ∧ (∃ a, r.content = some a ∧ a.fits s op) ∧ Pair c s due next none spc q r.read.finish := by
  cases pair.link with
  | written _ _ writes => simp [Writes] at writes
  | queued _ _ asks => simp [Asks] at asks
  | taken _ asks => simp [Asks] at asks
  | read _ a nothing empty queue unwritten unseen holds fits =>
    obtain ⟨b, taken, _⟩ := Option.bind_eq_some_iff.mp holds
    refine ⟨nothing, rfl, ⟨a, holds, fits⟩, pair.req, (pair.rep.read taken unseen).finish rfl, .quiet nothing empty ?_, ?_⟩
    · simp [Mailbox.flight, Mailbox.inUse, Mailbox.read, Mailbox.finish, queue, unwritten]
    · have before := pair.replies
      simpa [Mailbox.read, Mailbox.finish] using before

end

end BiProject.MpMc
