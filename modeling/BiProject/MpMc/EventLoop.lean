import BiProject.McServer.Cache

/-!
# The servers of `mp_mc`

One turn of `event_loop` in `mc_code/mp_mc/servers/server.c`. Clients send their requests to servers and servers their
answers to clients, and no other node sends anything, so the `id` of a message is of one kind and `sender >= NUM_NODE/2`
holds by its type. A server keeps its cache with the proof that it is well formed, so that every turn comes to its end.
-/

namespace BiProject.MpMc
set_option autoImplicit false
open BiProject.McServer

/-! ## Nodes and messages -/

/-- The nodes below `NUM_NODE/2`, -/
inductive ServerNode where
  | s0
  | s1
deriving DecidableEq

/-- and the others. -/
inductive ClientNode where
  | c2
  | c3
deriving DecidableEq

/-- `cur_node-NUM_NODE/2`, the server that a client stops. -/
def ClientNode.own : ClientNode → ServerNode
  | .c2 => .s0
  | .c3 => .s1

/-- The server of a hash value. -/
def hv2node (hv : Nat) : ServerNode := if hashmask / 2 < hv &&& hashmask then .s1 else .s0

abbrev Key := { k : List UInt8 // k.length = keyLength }
abbrev Value := { v : List UInt8 // v.length = vLength }

/-- What a client writes into a buffer, -/
inductive Request where
  | get (id : ClientNode) (key : Key)
  | set (id : ClientNode) (key : Key) (data : Value)
  | mcBegin (id : ClientNode)
  | mcExit (id : ClientNode)
deriving DecidableEq

/-- and what a server does. -/
inductive Answer where
  | getOk (id : ServerNode) (data : List UInt8)
  | getFail (id : ServerNode)
  | setOk (id : ServerNode)
  | setFail (id : ServerNode)
deriving DecidableEq

def Answer.id : Answer → ServerNode
  | .getOk id _ | .getFail id | .setOk id | .setFail id => id

/-! ## The cache -/

/-- The objects of a server's slab, in the order of their addresses. -/
structure Slab where
  objs : List Addr
  distinct : objs.Nodup
  large : evictNum < objs.length

/-- What a server keeps, well formed. -/
structure Cache (hash : List UInt8 → Nat) (slab : Slab) where
  server : Server
  cached : ∃ log chain book, Cached hash slab.objs server log chain book

section
variable {hash : List UInt8 → Nat} {slab : Slab}

/-- What `server_init` leaves. -/
def Cache.init : Cache hash slab := ⟨serverInit, [], fun _ => [], fun _ => none, Cached.init⟩

theorem Cache.handle_isSome (t : Cache hash slab) {msg : Msg} (admissible : msg.Admissible) :
    (McServer.handle hash (slab.objs.length + 1) slab.objs t.server msg).isSome := by
  obtain ⟨log, chain, book, cached⟩ := t.cached
  obtain ⟨reply, σ', _, _, call, _⟩ := cached.step slab.distinct slab.large (Nat.lt_succ_self _) admissible
  simp [call]

theorem Cache.handle_cached (t : Cache hash slab) {msg : Msg} (admissible : msg.Admissible) :
    ∃ log chain book, Cached hash slab.objs
      ((McServer.handle hash (slab.objs.length + 1) slab.objs t.server msg).get (t.handle_isSome admissible)).2 log chain book := by
  obtain ⟨log, chain, book, cached⟩ := t.cached
  obtain ⟨reply, σ', chain', book', call, _, next⟩ := cached.step slab.distinct slab.large (Nat.lt_succ_self _) admissible
  refine ⟨log ++ eventsOf slab.objs t.server msg reply σ', chain', book', ?_⟩
  simpa [call] using next

/-- The part of a turn that works on the cache, and its answer. -/
def Cache.handle (t : Cache hash slab) (msg : Msg) (admissible : msg.Admissible) : Reply × Cache hash slab :=
  let r := (McServer.handle hash (slab.objs.length + 1) slab.objs t.server msg).get (t.handle_isSome admissible)
  (r.1, ⟨r.2, t.handle_cached admissible⟩)

theorem Cache.handle_eq (t : Cache hash slab) {msg : Msg} (admissible : msg.Admissible) :
    McServer.handle hash (slab.objs.length + 1) slab.objs t.server msg =
      some ((t.handle msg admissible).1, (t.handle msg admissible).2.server) := by
  obtain ⟨r, call⟩ := Option.isSome_iff_exists.mp (t.handle_isSome admissible)
  simp [Cache.handle, call]

/-- Only MC_BEGIN ends the loading. -/
theorem Cache.handle_loading (t : Cache hash slab) {msg : Msg} (admissible : msg.Admissible) :
    (t.handle msg admissible).2.server.loading = false ↔ t.server.loading = false ∨ msg = .begin := by
  obtain ⟨log, chain, book, cached⟩ := t.cached
  obtain ⟨reply, σ', _, _, call, served, _⟩ := cached.step slab.distinct slab.large (Nat.lt_succ_self _) admissible
  rw [t.handle_eq admissible, Option.some.injEq, Prod.mk.injEq] at call
  rw [call.2]
  exact served.loading

theorem Cache.handle_keeps (t : Cache hash slab) {msg : Msg} (admissible : msg.Admissible) (other : msg ≠ .begin) :
    (t.handle msg admissible).2.server.loading = t.server.loading := by
  have loading := t.handle_loading admissible
  cases before : t.server.loading <;> simp_all

theorem Cache.handle_get (t : Cache hash slab) (key : Key) :
    (∃ data, (t.handle (.get key) key.2).1 = .getOk data) ∨ (t.handle (.get key) key.2).1 = .getFail := by
  have admissible : (Msg.get key).Admissible := key.2
  obtain ⟨log, chain, book, cached⟩ := t.cached
  obtain ⟨reply, σ', _, _, call, served, _⟩ := cached.step slab.distinct slab.large (Nat.lt_succ_self _) admissible
  rw [t.handle_eq admissible, Option.some.injEq, Prod.mk.injEq] at call
  rw [call.1, served.get key rfl]
  split
  · exact Or.inl ⟨_, rfl⟩
  · exact Or.inr rfl

theorem Cache.handle_set (t : Cache hash slab) (key : Key) (data : Value) :
    (t.handle (.set key data) ⟨key.2, data.2⟩).1 = .setOk ∨ (t.handle (.set key data) ⟨key.2, data.2⟩).1 = .setFail := by
  have call := t.handle_eq (show (Msg.set key data).Admissible from ⟨key.2, data.2⟩)
  simp only [McServer.handle, Option.bind_eq_bind, Option.bind_eq_some_iff, Prod.exists] at call
  obtain ⟨done, σ', _, answer⟩ := call
  split at answer
  · simp only [Option.pure_def, Option.some.injEq, Prod.mk.injEq] at answer
    exact Or.inl answer.1.symm
  · simp only [Option.guard_eq_some', Option.pure_def, Option.bind_eq_some_iff, Option.some.injEq, Prod.mk.injEq] at answer
    obtain ⟨_, _, answer, _⟩ := answer
    exact Or.inr answer.symm

/-! ## One turn -/

/-- The variables of a server; `e` is false after MC_EXIT. -/
structure Srv (hash : List UInt8 → Nat) (slab : Slab) where
  cache : Cache hash slab
  e : Bool

def Srv.init : Srv hash slab := ⟨Cache.init, true⟩

def Srv.loading (st : Srv hash slab) : Bool := st.cache.server.loading

/-- The type and the value that a turn writes into `ret`. -/
def answerOf (cur : ServerNode) : Reply → Option Answer
  | .getOk data => some (.getOk cur data)
  | .getFail => some (.getFail cur)
  | .setOk => some (.setOk cur)
  | .setFail => some (.setFail cur)
  | .noReply => none

/-- What a turn does with a message, and the answer it passes to `rpc_send`. -/
def eventLoop (cur : ServerNode) (st : Srv hash slab) : Request → Srv hash slab × Option (ClientNode × Answer)
  | .get sender key =>
    let (r, cache) := st.cache.handle (.get key) key.2
    ({ st with cache := cache }, (answerOf cur r).map fun a => (sender, a))
  | .set sender key data =>
    let (r, cache) := st.cache.handle (.set key data) ⟨key.2, data.2⟩
    ({ st with cache := cache }, (answerOf cur r).map fun a => (sender, a))
  | .mcBegin _ => ({ st with cache := (st.cache.handle .begin trivial).2 }, none)
  | .mcExit _ => ({ st with e := false }, none)

end

end BiProject.MpMc
