import BiProject.Smr.FreePath
import Mathlib.Data.List.TakeWhile

/-!
# The runtime of all nodes as one step relation

Any number of nodes and cores run `bi_enter`, `bi_exit`, `bi_time_flush`, `bi_smr_free`,
`bi_wlog_free`, the cache flushes, the reclaims and `bi_smr_flush` / `bi_wlog_flush` in any
interleaving (`Do`). A flush is not one step: after it has moved the local cache into the ring
and invalidated its copies of the other rings, it reads one ring header and then one entry at a
time while the owners keep enqueuing and dequeuing. A node's copy of a line of another ring is
whatever memory held at some moment since that invalidation.

A run (`Run`) gives each step a true time of its own. Each node has a view of the shared clock
that never goes back, is never ahead of the true time and is at most `lag` behind it; whatever a
step reads from the clock lies between the node's view before and after the step.
-/

namespace BiProject.Smr
set_option autoImplicit false
open BiProject.Lib

/-- The two users of quiescence rings: freed memory, and the write log of a core. -/
inductive RingKind where
  | smr
  | wlog (cid : Nat)
deriving DecidableEq, Repr

/-- How many nodes and cores are active, and how far a clock view may lag. -/
structure Params where
  activeNodes : Nat
  activeCores : Nat
  lag : Nat

/-- What a node's cache holds of a ring of another node. -/
structure RingCopy where
  header : Option (Nat × Nat)
  slot : Nat → Option QuiesItem

/-- No copy. -/
def RingCopy.invalid : RingCopy := ⟨none, fun _ => none⟩

/-- A flush in progress: the loop counter over the nodes and, inside `qsc_ring_flush`, the slot
reached and the tail. Nothing in that loop writes the header and its line stays cached, so the
loop works on the head and tail it read first. -/
structure FlushCall where
  i : Nat
  loop : Option (Nat × Nat)

/-- `parsec_time_cache` and the published section records of every node, the rings with their
local caches, the copies of rings and the flushes in progress. -/
structure Runtime where
  parsecTimeCache : Nat → Nat → Parsec
  parsecTimes : Nat → Nat → Parsec
  queue : Nat → RingKind → QscQueue
  copy : Nat → RingKind → Nat → RingCopy
  call : Nat → RingKind → Option FlushCall

/-- Change a two-index table at one place. -/
def upd {α β γ : Type*} [DecidableEq α] [DecidableEq β] (f : α → β → γ) (a : α) (b : β) (v : γ) : α → β → γ :=
  fun x y => if x = a ∧ y = b then v else f x y

@[simp] theorem upd_same {α β γ : Type*} [DecidableEq α] [DecidableEq β] (f : α → β → γ) (a : α) (b : β) (v : γ) :
    upd f a b v a b = v := by
  simp [upd]

theorem upd_ne {α β γ : Type*} [DecidableEq α] [DecidableEq β] (f : α → β → γ) {a x : α} {b y : β} (v : γ)
    (other : ¬ (x = a ∧ y = b)) : upd f a b v x y = f x y := by
  simp only [upd, if_neg other]

/-- `bi_wlog_free`. -/
def biWlogFree (q : QscQueue) (buf : Addr) (sz : Nat) (clk : Nat → Nat) : Option QscQueue :=
  if buf = 0 then none else qscLocalCachePut q buf sz clk

/-- `bi_smr_free` of an object whose slab size is `sz`, or `bi_wlog_free`. -/
def freeInto (κ : RingKind) (q : QscQueue) (buf : Addr) (sz : Nat) (clk : Nat → Nat) : Option QscQueue :=
  match κ with
  | .smr => biSmrFree (fun _ => sz) q buf clk
  | .wlog _ => biWlogFree q buf sz clk

/-- The pointer that such a call stores. -/
def entryOf (κ : RingKind) (buf : Addr) : Addr :=
  match κ with
  | .smr => psMheadGet buf
  | .wlog _ => buf

/-- The bound `bi_smr_reclaim` and `bi_wlog_reclaim` compare stamps with. -/
def reclaimBound (P : Params) (s : Runtime) (n : Nat) (κ : RingKind) (tsc : Nat) : Nat :=
  match κ with
  | .smr => biQuiesce n P.activeNodes P.activeCores s.parsecTimes tsc
  | .wlog _ => biQuiesceCache tsc

/-- The ring a flush begins with: `bi_smr_flush` includes the node's own, `bi_wlog_flush` does not. -/
def firstRing (κ : RingKind) : Nat :=
  match κ with
  | .smr => 0
  | .wlog _ => 1

/-- The header and the slots of the ring of node `q` as node `n` reads them in a flush. -/
def readHeader (s : Runtime) (n : Nat) (κ : RingKind) (q : Nat) : Nat × Nat :=
  let current := ((s.queue q κ).ql.head, (s.queue q κ).ql.tail)
  if q = n then current else (s.copy n κ q).header.getD current

/-- The copy of one slot is brought in. -/
def readSlot (s : Runtime) (n : Nat) (κ : RingKind) (q j : Nat) : QuiesItem :=
  let current := (s.queue q κ).ql.ring j
  if q = n then current else ((s.copy n κ q).slot j).getD current

/-- The entries an operation on the queue has put into the ring. -/
def newItems (q q' : QscQueue) : List QuiesItem := q'.ql.items.drop q.ql.items.length

/-- What happened. `free`, `cacheFlush` and `flushBegin` record the entries they put into the ring,
`reclaim` the entries it took out, `clflush` the range passed to `clflush_range_opt`. -/
inductive Ev where
  | enter (n c : Nat)
  | exit (n c : Nat)
  | timeFlush (n : Nat)
  | free (n : Nat) (κ : RingKind) (buf : Addr) (sz : Nat) (put : List QuiesItem)
  | cacheFlush (n : Nat) (κ : RingKind) (put : List QuiesItem)
  | reclaim (n : Nat) (κ : RingKind) (items : List QuiesItem)
  | fetchHeader (n : Nat) (κ : RingKind) (q : Nat)
  | fetchSlot (n : Nat) (κ : RingKind) (q j : Nat)
  | flushBegin (n : Nat) (κ : RingKind) (put : List QuiesItem)
  | flushRing (n : Nat) (κ : RingKind)
  | clflush (n : Nat) (κ : RingKind) (mh : Addr) (sz : Nat)
  | flushNext (n : Nat) (κ : RingKind)
  | flushEnd (n : Nat) (κ : RingKind)

/-- The node that takes the step. -/
def Ev.node : Ev → Nat
  | .enter n _ | .exit n _ | .timeFlush n | .free n _ _ _ _ | .cacheFlush n _ _ | .reclaim n _ _
  | .fetchHeader n _ _ | .fetchSlot n _ _ _ | .flushBegin n _ _ | .flushRing n _ | .clflush n _ _ _
  | .flushNext n _ | .flushEnd n _ => n

/-- One step; `clk` are the clock readings it takes. A step whose assertions fail does not exist. -/
inductive Do (P : Params) (clk : Nat → Nat) (s : Runtime) : Ev → Runtime → Prop where
  | enter {n c : Nat} (core : c < P.activeCores) :
      Do P clk s (.enter n c) { s with parsecTimeCache := upd s.parsecTimeCache n c (biEnter (clk 0)) }
  | exit {n c : Nat} (core : c < P.activeCores) :
      Do P clk s (.exit n c) { s with parsecTimeCache := upd s.parsecTimeCache n c (biExit (s.parsecTimeCache n c)) }
  | timeFlush {n : Nat} :
      Do P clk s (.timeFlush n) { s with parsecTimes := Function.update s.parsecTimes n (s.parsecTimeCache n) }
  | free {n : Nat} {κ : RingKind} {buf : Addr} {sz : Nat} {q : QscQueue}
      (run : freeInto κ (s.queue n κ) buf sz clk = some q) :
      Do P clk s (.free n κ buf sz (newItems (s.queue n κ) q)) { s with queue := upd s.queue n κ q }
  | cacheFlush {n r : Nat} {κ : RingKind} {q : QscQueue}
      (run : qscLocalCacheFlush (s.queue n κ) clk = some (r, q)) :
      Do P clk s (.cacheFlush n κ (newItems (s.queue n κ) q)) { s with queue := upd s.queue n κ q }
  | reclaim {n : Nat} {κ : RingKind} {items : List QuiesItem} {ql : BiQscRing}
      (run : qscRingReclaim (reclaimBound P s n κ (clk 0)) (s.queue n κ).ql = (items, ql)) :
      Do P clk s (.reclaim n κ items) { s with queue := upd s.queue n κ ⟨(s.queue n κ).lc, ql⟩ }
  | fetchHeader {n q : Nat} {κ : RingKind} :
      Do P clk s (.fetchHeader n κ q)
        { s with copy := upd s.copy n κ (Function.update (s.copy n κ) q
            { s.copy n κ q with header := some ((s.queue q κ).ql.head, (s.queue q κ).ql.tail) }) }
  | fetchSlot {n q j : Nat} {κ : RingKind} :
      Do P clk s (.fetchSlot n κ q j)
        { s with copy := upd s.copy n κ (Function.update (s.copy n κ) q
            { s.copy n κ q with slot := Function.update (s.copy n κ q).slot j (some ((s.queue q κ).ql.ring j)) }) }
  | flushBegin {n r : Nat} {κ : RingKind} {q : QscQueue} (idle : s.call n κ = none)
      (run : qscLocalCacheFlush (s.queue n κ) clk = some (r, q)) :
      Do P clk s (.flushBegin n κ (newItems (s.queue n κ) q))
        { s with
          queue := upd s.queue n κ q
          copy := upd s.copy n κ (fun _ => RingCopy.invalid)
          call := upd s.call n κ (some ⟨firstRing κ, none⟩) }
  | flushRing {n i : Nat} {κ : RingKind} (here : s.call n κ = some ⟨i, none⟩) (more : i < P.activeNodes) :
      Do P clk s (.flushRing n κ)
        { s with call := upd s.call n κ (some ⟨i, some (readHeader s n κ ((n + i) % P.activeNodes))⟩) }
  | clflush {n i j tail : Nat} {κ : RingKind} (here : s.call n κ = some ⟨i, some (j, tail)⟩) (more : j ≠ tail) :
      Do P clk s (.clflush n κ (readSlot s n κ ((n + i) % P.activeNodes) j).mh
          (readSlot s n κ ((n + i) % P.activeNodes) j).sz)
        { s with call := upd s.call n κ (some ⟨i, some ((j + 1) % maxQuiRingLen, tail)⟩) }
  | flushNext {n i j tail : Nat} {κ : RingKind} (here : s.call n κ = some ⟨i, some (j, tail)⟩) (done : j = tail) :
      Do P clk s (.flushNext n κ) { s with call := upd s.call n κ (some ⟨i + 1, none⟩) }
  | flushEnd {n i : Nat} {κ : RingKind} (here : s.call n κ = some ⟨i, none⟩) (done : ¬ i < P.activeNodes) :
      Do P clk s (.flushEnd n κ) { s with call := upd s.call n κ none }

/-- The clock views before and after a step of node `n` at true time `t`, and its readings. -/
structure Clock (P : Params) (t : Nat) (view view' : Nat → Nat) (n : Nat) (clk : Nat → Nat) : Prop where
  advance : ∀ m, view m ≤ view' m
  notAhead : ∀ m < P.activeNodes, view' m ≤ t
  near : ∀ m < P.activeNodes, t ≤ view' m + P.lag
  monotone : Monotone clk
  after : ∀ i, view n ≤ clk i
  before : ∀ i, clk i ≤ view' n
  fresh : ∀ i, t ≤ clk i + P.lag
  late : ∀ i, flushGracePeriod ≤ clk i
  width : ∀ i, clk i < u64

/-- A step and its true time. A history lists the newest step first. -/
structure Timed where
  time : Nat
  ev : Ev

/-- What has happened. -/
abbrev History := List Timed

/-- The state before any step: `parsec_struct_init` and `qsc_ring_struct_init` have run, the local
caches are empty. -/
structure Runtime.Init (s : Runtime) : Prop where
  times : ∀ n c, s.parsecTimes n c = parsecStructInit
  timeCache : ∀ n c, s.parsecTimeCache n c = parsecStructInit
  ring : ∀ n κ, (s.queue n κ).ql = qscRingStructInit (s.queue n κ).ql
  cache : ∀ n κ, (s.queue n κ).lc = qscLocalCacheInit (s.queue n κ).lc
  idle : ∀ n κ, s.call n κ = none

/-- Runs from `s₀` at true time `start`: the history, the current time, the clock views and the
state reached. -/
inductive Run (P : Params) (start : Nat) (s₀ : Runtime) : History → Nat → (Nat → Nat) → Runtime → Prop where
  | init (view : Nat → Nat) : Run P start s₀ [] start view s₀
  | step {h : History} {now t : Nat} {view view' clk : Nat → Nat} {s s' : Runtime} {ev : Ev}
      (before : Run P start s₀ h now view s) (later : now < t) (node : ev.node < P.activeNodes)
      (clock : Clock P t view view' ev.node clk) (act : Do P clk s ev s') :
      Run P start s₀ (⟨t, ev⟩ :: h) t view' s'

/-- Nothing has happened yet. -/
def Runtime.blank : Runtime where
  parsecTimeCache := fun _ _ => parsecStructInit
  parsecTimes := fun _ _ => parsecStructInit
  queue := fun _ _ => ⟨⟨fun _ => 0, fun _ => 0, 0⟩, ⟨0, 0, fun _ => ⟨0, 0, 0⟩⟩⟩
  copy := fun _ _ _ => RingCopy.invalid
  call := fun _ _ => none

theorem Runtime.blank_init : Runtime.blank.Init :=
  ⟨fun _ _ => rfl, fun _ _ => rfl, fun _ _ => rfl, fun _ _ => rfl, fun _ _ => rfl⟩

/-- A step at which every view is the true time. -/
theorem Clock.exact {P : Params} {t t' n : Nat} (later : t ≤ t') (late : flushGracePeriod ≤ t') (width : t' < u64) :
    Clock P t' (fun _ => t) (fun _ => t') n (fun _ => t') where
  advance := fun _ => later
  notAhead := fun _ _ => Nat.le_refl _
  near := fun _ _ => Nat.le_add_right _ _
  monotone := fun _ _ _ => Nat.le_refl _
  after := fun _ => later
  before := fun _ => Nat.le_refl _
  fresh := fun _ => Nat.le_add_right _ _
  late := fun _ => late
  width := fun _ => width

/-- A run extended by such a step. -/
theorem Run.exact {P : Params} {start now t : Nat} {s₀ s s' : Runtime} {h : History} {ev : Ev}
    (before : Run P start s₀ h now (fun _ => now) s) (later : now < t) (late : flushGracePeriod ≤ t)
    (width : t < u64) (node : ev.node < P.activeNodes) (act : Do P (fun _ => t) s ev s') :
    Run P start s₀ (⟨t, ev⟩ :: h) t (fun _ => t) s' :=
  before.step later node (Clock.exact (Nat.le_of_lt later) late width) act

/-- The entries put into and taken out of the ring `κ` of node `q`, oldest first. -/
def Ev.put (q : Nat) (κ : RingKind) : Ev → List QuiesItem
  | .free n κ' _ _ put | .cacheFlush n κ' put | .flushBegin n κ' put => if n = q ∧ κ' = κ then put else []
  | _ => []

def Ev.taken (q : Nat) (κ : RingKind) : Ev → List QuiesItem
  | .reclaim n κ' items => if n = q ∧ κ' = κ then items else []
  | _ => []

/-- What a step passes to `bi_smr_free` or `bi_wlog_free` of that ring. -/
def Ev.freed (q : Nat) (κ : RingKind) : Ev → List (Addr × Nat)
  | .free n κ' buf sz _ => if n = q ∧ κ' = κ then [(buf, sz)] else []
  | _ => []

/-- The entries put in along a history, -/
def puts (q : Nat) (κ : RingKind) : History → List QuiesItem
  | [] => []
  | e :: h => puts q κ h ++ e.ev.put q κ

/-- and taken out. -/
def takes (q : Nat) (κ : RingKind) : History → List QuiesItem
  | [] => []
  | e :: h => takes q κ h ++ e.ev.taken q κ

/-- The frees with their true time. -/
def frees (q : Nat) (κ : RingKind) : History → List (Nat × Addr × Nat)
  | [] => []
  | e :: h => frees q κ h ++ (e.ev.freed q κ).map fun f => (e.time, f)

/-- The true time of the last step of a history. -/
def lastTime (start : Nat) : History → Nat
  | [] => start
  | e :: _ => e.time

/-! ## What a step does to one queue -/

/-- The queue took in `freed` and put `new` into its ring, stamped by `clk`. -/
structure Grows (clk : Nat → Nat) (q : QscQueue) (freed : List (Addr × Nat)) (q' : QscQueue)
    (new : List QuiesItem) : Prop where
  wf : q'.ql.Wf
  room : q'.lc.cnt < localCacheQueueSz
  head : q'.ql.head = q.ql.head
  ring : q'.ql.items = q.ql.items ++ new
  cache : q.lc.items ++ freed = new.map (fun a => (a.mh, a.sz)) ++ q'.lc.items
  stamps : ∀ a ∈ new, ∃ i, a.tscFree = clk i

/-- Nothing happens. -/
theorem Grows.refl {clk : Nat → Nat} {q : QscQueue} (wf : q.ql.Wf) (room : q.lc.cnt < localCacheQueueSz) :
    Grows clk q [] q [] :=
  ⟨wf, room, rfl, (List.append_nil _).symm, List.append_nil _, fun _ member => absurd member List.not_mem_nil⟩

/-- A flush of the cache leaves the head of the ring, -/
theorem qscLocalCacheFlush_head {q q' : QscQueue} {clk : Nat → Nat} {r : Nat}
    (run : qscLocalCacheFlush q clk = some (r, q')) : q'.ql.head = q.ql.head := by
  simp only [qscLocalCacheFlush, qscRingEnqueueBatch, Option.map_map, Option.map_eq_some_iff] at run
  obtain ⟨⟨j, ring⟩, _, same⟩ := run
  rw [← (Prod.mk.inj same).2]

/-- and so does a put. -/
theorem qscLocalCachePut_head {q q' : QscQueue} {clk : Nat → Nat} {buf : Addr} {sz : Nat}
    (run : qscLocalCachePut q buf sz clk = some q') : q'.ql.head = q.ql.head := by
  rw [qscLocalCachePut] at run
  split at run
  · simp only at run
    split at run
    · rw [Option.map_eq_some_iff] at run
      obtain ⟨⟨r, q''⟩, flushed, rfl⟩ := run
      have kept := qscLocalCacheFlush_head flushed
      exact kept
    · cases run; rfl
  · cases run

/-- New entries are what was appended. -/
theorem newItems_append {q q' : QscQueue} {new : List QuiesItem} (grown : q'.ql.items = q.ql.items ++ new) :
    newItems q q' = new := by
  simp [newItems, grown]

/-- A flush of the cache moves it into the ring. -/
theorem Grows.cacheFlush {q q' : QscQueue} {clk : Nat → Nat} {r : Nat} (wf : q.ql.Wf)
    (run : qscLocalCacheFlush q clk = some (r, q')) : Grows clk q [] q' (newItems q q') := by
  obtain ⟨q'', run', wf', empty, grown, zero⟩ := qscLocalCacheFlush_spec wf clk (qscLocalCacheFlush_room wf run)
  have same : q'' = q' := (Prod.mk.inj (Option.some.inj (run'.symm.trans run))).2
  subst same
  rw [newItems_append grown]
  refine ⟨wf', zero ▸ localCacheQueueSz_pos, qscLocalCacheFlush_head run, grown, ?_, fun a => mem_stamped⟩
  rw [stamped_entries, empty]

/-- A free is a put into the cache. -/
theorem freeInto_eq (κ : RingKind) (q : QscQueue) (buf : Addr) (sz : Nat) (clk : Nat → Nat) :
    freeInto κ q buf sz clk = if buf = 0 then none else qscLocalCachePut q (entryOf κ buf) sz clk := by
  cases κ <;> rfl

/-- It frees one object. -/
theorem Grows.free {κ : RingKind} {q q' : QscQueue} {clk : Nat → Nat} {buf : Addr} {sz : Nat} (wf : q.ql.Wf)
    (run : freeInto κ q buf sz clk = some q') : Grows clk q [(entryOf κ buf, sz)] q' (newItems q q') := by
  rw [freeInto_eq] at run
  split at run
  · cases run
  · obtain ⟨bound, room⟩ := qscLocalCachePut_room wf run
    obtain ⟨q'', run', wf', room', items⟩ := qscLocalCachePut_spec wf bound _ _ _ room
    have same : q'' = q' := Option.some.inj (run'.symm.trans run)
    subst same
    have head := qscLocalCachePut_head run
    unfold putItems at items
    split at items
    · obtain ⟨ring, cache⟩ := Prod.mk.inj items
      rw [newItems_append ring]
      exact ⟨wf', room', head, ring, by rw [stamped_entries, cache, List.append_nil], fun a => mem_stamped⟩
    · obtain ⟨ring, cache⟩ := Prod.mk.inj items
      have grown : q''.ql.items = q.ql.items ++ [] := ring.trans (List.append_nil _).symm
      rw [newItems_append grown]
      exact ⟨wf', room', head, grown, cache.symm, fun _ member => absurd member List.not_mem_nil⟩

/-- A queue as it can be between steps. -/
structure QscQueue.Wf (q : QscQueue) : Prop where
  ring : q.ql.Wf
  room : q.lc.cnt < localCacheQueueSz

/-- **One step, one queue**: it grows by what the step frees and puts, or the step reclaims from it. -/
theorem Do.queue_cases {P : Params} {clk : Nat → Nat} {s s' : Runtime} {ev : Ev} (act : Do P clk s ev s')
    (wf : ∀ n κ, (s.queue n κ).Wf) (q : Nat) (κ : RingKind) :
    (Grows clk (s.queue q κ) ((ev.freed q κ).map fun f => (entryOf κ f.1, f.2)) (s'.queue q κ) (ev.put q κ) ∧
      ev.taken q κ = []) ∨
    (ev = .reclaim q κ (ev.taken q κ) ∧ ev.freed q κ = [] ∧ ev.put q κ = [] ∧
      (s'.queue q κ).lc = (s.queue q κ).lc ∧
      qscRingReclaim (reclaimBound P s q κ (clk 0)) (s.queue q κ).ql = (ev.taken q κ, (s'.queue q κ).ql)) := by
  have idle : Grows clk (s.queue q κ) [] (s.queue q κ) [] := Grows.refl (wf q κ).ring (wf q κ).room
  cases act with
  | @free n κ' buf sz q' run =>
    left
    by_cases here : n = q ∧ κ' = κ
    · obtain ⟨rfl, rfl⟩ := here
      simpa [Ev.freed, Ev.put, Ev.taken] using Grows.free (wf n κ').ring run
    · have other : ¬ (q = n ∧ κ = κ') := fun h => here ⟨h.1.symm, h.2.symm⟩
      simpa [Ev.freed, Ev.put, Ev.taken, here, upd_ne _ _ other] using idle
  | @cacheFlush n r κ' q' run =>
    left
    by_cases here : n = q ∧ κ' = κ
    · obtain ⟨rfl, rfl⟩ := here
      simpa [Ev.freed, Ev.put, Ev.taken] using Grows.cacheFlush (wf n κ').ring run
    · have other : ¬ (q = n ∧ κ = κ') := fun h => here ⟨h.1.symm, h.2.symm⟩
      simpa [Ev.freed, Ev.put, Ev.taken, here, upd_ne _ _ other] using idle
  | @flushBegin n r κ' q' _ run =>
    left
    by_cases here : n = q ∧ κ' = κ
    · obtain ⟨rfl, rfl⟩ := here
      simpa [Ev.freed, Ev.put, Ev.taken] using Grows.cacheFlush (wf n κ').ring run
    · have other : ¬ (q = n ∧ κ = κ') := fun h => here ⟨h.1.symm, h.2.symm⟩
      simpa [Ev.freed, Ev.put, Ev.taken, here, upd_ne _ _ other] using idle
  | @reclaim n κ' items ql run =>
    by_cases here : n = q ∧ κ' = κ
    · obtain ⟨rfl, rfl⟩ := here
      right
      simpa [Ev.freed, Ev.put, Ev.taken] using run
    · left
      have other : ¬ (q = n ∧ κ = κ') := fun h => here ⟨h.1.symm, h.2.symm⟩
      simpa [Ev.freed, Ev.put, Ev.taken, here, upd_ne _ _ other] using idle
  | enter | exit | timeFlush | fetchHeader | fetchSlot | flushRing | clflush | flushNext | flushEnd =>
    left
    exact ⟨idle, rfl⟩

/-! ## What holds of every queue along a run -/

/-- The queue of ring `κ` of node `q` after history `h`: it is what was put and not taken, in order;
its head is the number of entries taken modulo the ring length; every free is in the ring's
history or in the cache; and no entry is stamped more than `lag` before the step that put it. -/
structure QueueInv (P : Params) (start : Nat) (h : History) (Q : QscQueue) (q : Nat) (κ : RingKind) : Prop where
  wf : Q.Wf
  order : puts q κ h = takes q κ h ++ Q.ql.items
  head : Q.ql.head = (takes q κ h).length % maxQuiRingLen
  entries : (frees q κ h).map (fun f => (entryOf κ f.2.1, f.2.2)) =
    (puts q κ h).map (fun a => (a.mh, a.sz)) ++ Q.lc.items
  stamps : ∀ earlier later, h = later ++ earlier → ∀ k a, (puts q κ h)[k]? = some a →
    (puts q κ earlier).length ≤ k → lastTime start earlier < a.tscFree + P.lag
  freeTimes : ∀ (k : Nat) (a : QuiesItem) (f : Nat × Addr × Nat), (puts q κ h)[k]? = some a → (frees q κ h)[k]? = some f → f.1 ≤ a.tscFree + P.lag

/-- No step is later than now, -/
theorem Run.time_le {P : Params} {start now : Nat} {s₀ s : Runtime} {h : History} {view : Nat → Nat}
    (run : Run P start s₀ h now view s) : lastTime start h = now ∧ ∀ e ∈ h, e.time ≤ now := by
  induction run with
  | init view => exact ⟨rfl, fun _ member => absurd member List.not_mem_nil⟩
  | step before later node clock act ih =>
    refine ⟨rfl, fun e member => ?_⟩
    rcases List.mem_cons.mp member with same | old
    · subst same; exact Nat.le_refl _
    · exact Nat.le_trans (ih.2 e old) (Nat.le_of_lt later)

/-- or earlier than the start. -/
theorem Run.start_le {P : Params} {start now : Nat} {s₀ s : Runtime} {h : History} {view : Nat → Nat}
    (run : Run P start s₀ h now view s) : start ≤ now := by
  induction run with
  | init view => exact Nat.le_refl _
  | step before later node clock act ih => omega

/-- Neither is a free. -/
theorem frees_time_le {q : Nat} {κ : RingKind} {now : Nat} : ∀ {h : History}, (∀ e ∈ h, e.time ≤ now) →
    ∀ f ∈ frees q κ h, f.1 ≤ now := by
  intro h
  induction h with
  | nil => intro _ f member; cases member
  | cons e h ih =>
    intro bound f member
    rcases List.mem_append.mp member with old | new
    · exact ih (fun x hx => bound x (List.mem_cons_of_mem _ hx)) f old
    · obtain ⟨g, _, rfl⟩ := List.mem_map.mp new
      exact bound e List.mem_cons_self

/-- A prefix has the same elements where it has any. -/
theorem getElem?_grow {α : Type*} {xs ys : List α} {i : Nat} {a : α} (initial : xs <+: ys)
    (found : xs[i]? = some a) : ys[i]? = some a := by
  obtain ⟨rest, rfl⟩ := initial
  rw [List.getElem?_append_left (List.getElem?_eq_some_iff.mp found).1]
  exact found

/-- What was put stays put along a run, -/
theorem puts_suffix {q : Nat} {κ : RingKind} (later earlier : History) :
    puts q κ earlier <+: puts q κ (later ++ earlier) := by
  induction later with
  | nil => exact List.prefix_rfl
  | cons e later ih => exact ih.trans (List.prefix_append _ _)

/-- and what was taken stays taken. -/
theorem takes_suffix {q : Nat} {κ : RingKind} (later earlier : History) :
    takes q κ earlier <+: takes q κ (later ++ earlier) := by
  induction later with
  | nil => exact List.prefix_rfl
  | cons e later ih => exact ih.trans (List.prefix_append _ _)

/-- As many entries were put as frees are not in the cache, so every put entry has its free. -/
theorem QueueInv.puts_le_frees {P : Params} {start : Nat} {h : History} {Q : QscQueue} {q : Nat} {κ : RingKind}
    (inv : QueueInv P start h Q q κ) : (puts q κ h).length ≤ (frees q κ h).length := by
  have lengths := congrArg List.length inv.entries
  simp only [List.length_map, List.length_append] at lengths
  omega

/-- The queue is empty at the start. -/
theorem QueueInv.init {P : Params} {start : Nat} {s : Runtime} (init : s.Init) (q : Nat) (κ : RingKind) :
    QueueInv P start [] (s.queue q κ) q κ := by
  have ring := init.ring q κ
  have cache := init.cache q κ
  refine ⟨⟨?_, ?_⟩, ?_, ?_, ?_, ?_, ?_⟩
  · rw [ring]; exact ⟨maxQuiRingLen_pos, maxQuiRingLen_pos⟩
  · rw [cache]; exact localCacheQueueSz_pos
  · rw [ring]; exact (Ring.contents_self _ _ _).symm
  · rw [ring]; rfl
  · rw [cache]; rfl
  · intro earlier later _ k a found
    simp [puts] at found
  · intro k a f found
    simp [puts] at found

/-- A step that grows the queue. -/
theorem QueueInv.grow {P : Params} {start t : Nat} {h : History} {Q Q' : QscQueue} {q : Nat} {κ : RingKind}
    {clk : Nat → Nat} {ev : Ev} (inv : QueueInv P start h Q q κ) (began : start < t) (past : ∀ e ∈ h, e.time < t)
    (fresh : ∀ i, t ≤ clk i + P.lag) (nothing : ev.taken q κ = [])
    (grows : Grows clk Q ((ev.freed q κ).map fun f => (entryOf κ f.1, f.2)) Q' (ev.put q κ)) :
    QueueInv P start (⟨t, ev⟩ :: h) Q' q κ := by
  have newStamp : ∀ k a, (puts q κ (⟨t, ev⟩ :: h))[k]? = some a → (puts q κ h).length ≤ k → t ≤ a.tscFree + P.lag := by
    intro k a found new
    rw [puts, List.getElem?_append_right new] at found
    obtain ⟨i, stamp⟩ := grows.stamps a (List.mem_of_getElem? found)
    rw [stamp]
    exact fresh i
  refine ⟨⟨grows.wf, grows.room⟩, ?_, ?_, ?_, ?_, ?_⟩
  · simp only [puts, takes, nothing, List.append_nil]
    rw [inv.order, grows.ring, List.append_assoc]
  · rw [grows.head, inv.head]
    simp [takes, nothing]
  · simp only [frees, puts, List.map_append, List.map_map]
    rw [inv.entries, List.append_assoc, List.append_assoc, ← grows.cache]
    rfl
  · intro earlier later split k a found new
    cases later with
    | nil =>
      rw [List.nil_append] at split
      subst split
      have inside := (List.getElem?_eq_some_iff.mp found).1
      omega
    | cons e later =>
      obtain ⟨-, split⟩ := List.cons.inj split
      have last : lastTime start earlier < t := by
        cases earlier with
        | nil => exact began
        | cons x rest => exact past x (by rw [split]; simp)
      by_cases old : k < (puts q κ h).length
      · rw [puts, List.getElem?_append_left old] at found
        exact inv.stamps earlier later split k a found new
      · exact Nat.lt_of_lt_of_le last (newStamp k a found (Nat.le_of_not_lt old))
  · intro k a f found freed
    by_cases old : k < (puts q κ h).length
    · rw [puts, List.getElem?_append_left old] at found
      rw [frees, List.getElem?_append_left (Nat.lt_of_lt_of_le old inv.puts_le_frees)] at freed
      exact inv.freeTimes k a f found freed
    · refine Nat.le_trans (frees_time_le ?_ f (List.mem_of_getElem? freed))
        (newStamp k a found (Nat.le_of_not_lt old))
      intro e member
      rcases List.mem_cons.mp member with same | before
      · subst same; exact Nat.le_refl _
      · exact Nat.le_of_lt (past e before)

/-- A step that reclaims from the queue. -/
theorem QueueInv.shrink {P : Params} {start t qsc : Nat} {h : History} {Q Q' : QscQueue} {q : Nat} {κ : RingKind}
    {ev : Ev} (inv : QueueInv P start h Q q κ) (noFree : ev.freed q κ = []) (noPut : ev.put q κ = [])
    (cache : Q'.lc = Q.lc) (run : qscRingReclaim qsc Q.ql = (ev.taken q κ, Q'.ql)) :
    QueueInv P start (⟨t, ev⟩ :: h) Q' q κ := by
  obtain ⟨items, rest, wf, head⟩ := qscRingReclaim_spec qsc inv.wf.ring
  rw [run] at items rest wf head
  simp only at items rest wf head
  have same : puts q κ (⟨t, ev⟩ :: h) = puts q κ h := by simp [puts, noPut]
  have sameFrees : frees q κ (⟨t, ev⟩ :: h) = frees q κ h := by simp [frees, noFree]
  refine ⟨⟨wf, cache ▸ inv.wf.room⟩, ?_, ?_, ?_, ?_, ?_⟩
  · rw [same, inv.order, takes, rest, List.append_assoc]
    simp only [items, List.takeWhile_append_dropWhile]
  · rw [head, inv.head, takes, List.length_append, Nat.mod_add_mod]
  · rw [sameFrees, same, inv.entries, cache]
  · rw [same]
    intro earlier later split k a found new
    cases later with
    | nil =>
      rw [List.nil_append] at split
      subst split
      rw [same] at new
      have inside := (List.getElem?_eq_some_iff.mp found).1
      omega
    | cons e later => exact inv.stamps earlier later (List.cons.inj split).2 k a found new
  · rw [same, sameFrees]
    exact inv.freeTimes

/-- The entries a reclaim takes are eligible and are the next ones in the ring's history. -/
theorem QueueInv.reclaimed {P : Params} {start qsc : Nat} {h : History} {Q : QscQueue} {q : Nat} {κ : RingKind}
    {items : List QuiesItem} {ql : BiQscRing} (inv : QueueInv P start h Q q κ)
    (run : qscRingReclaim qsc Q.ql = (items, ql)) {i : Nat} {a : QuiesItem} (found : items[i]? = some a) :
    a.tscFree ≤ qsc ∧ (puts q κ h)[(takes q κ h).length + i]? = some a := by
  obtain ⟨taken, -, -, -⟩ := qscRingReclaim_spec qsc inv.wf.ring
  rw [run] at taken
  simp only at taken
  subst taken
  refine ⟨?_, ?_⟩
  · have eligible := List.mem_takeWhile_imp (List.mem_of_getElem? found)
    simpa using eligible
  · rw [inv.order, List.getElem?_append_right (Nat.le_add_right _ _), Nat.add_sub_cancel_left]
    exact getElem?_grow (List.takeWhile_prefix _) found

/-- The tail is the number of entries put, modulo the ring length. -/
theorem QueueInv.tail {P : Params} {start : Nat} {h : History} {Q : QscQueue} {q : Nat} {κ : RingKind}
    (inv : QueueInv P start h Q q κ) : Q.ql.tail = (puts q κ h).length % maxQuiRingLen := by
  have wrapped := Ring.head_add_span inv.wf.ring.head inv.wf.ring.tail
  rw [← wrapped, inv.head, inv.order, List.length_append, BiQscRing.items, Ring.contents_length, Nat.mod_add_mod,
    inv.head]

/-- An entry that was put and not taken is in the slot of its number. -/
theorem QueueInv.slot {P : Params} {start k : Nat} {h : History} {Q : QscQueue} {q : Nat} {κ : RingKind}
    (inv : QueueInv P start h Q q κ) (left : (takes q κ h).length ≤ k) (put : k < (puts q κ h).length) :
    (puts q κ h)[k]? = some (Q.ql.ring (k % maxQuiRingLen)) := by
  have inside : k - (takes q κ h).length < Q.ql.items.length := by
    have lengths := congrArg List.length inv.order
    rw [List.length_append] at lengths
    omega
  rw [inv.order, List.getElem?_append_right left, BiQscRing.items, Ring.contents_getElem? _ inside, inv.head,
    Nat.mod_add_mod, Nat.add_sub_cancel' left]

/-- The ring never has as many entries as slots. -/
theorem QueueInv.length_lt {P : Params} {start : Nat} {h : History} {Q : QscQueue} {q : Nat} {κ : RingKind}
    (inv : QueueInv P start h Q q κ) :
    (takes q κ h).length ≤ (puts q κ h).length ∧ (puts q κ h).length < (takes q κ h).length + maxQuiRingLen := by
  have lengths := congrArg List.length inv.order
  have short := BiQscRing.items_length_lt inv.wf.ring
  rw [List.length_append] at lengths
  omega

/-- **Every run keeps every queue's invariant.** -/
theorem Run.queueInv {P : Params} {start now : Nat} {s₀ s : Runtime} {h : History} {view : Nat → Nat}
    (init : s₀.Init) (run : Run P start s₀ h now view s) (q : Nat) (κ : RingKind) :
    QueueInv P start h (s.queue q κ) q κ := by
  induction run generalizing q κ with
  | init view => exact QueueInv.init init q κ
  | @step h now t view view' clk s s' ev before later node clock act ih =>
    have began : start < t := Nat.lt_of_le_of_lt before.start_le later
    have past : ∀ e ∈ h, e.time < t := fun e member => Nat.lt_of_le_of_lt (before.time_le.2 e member) later
    rcases act.queue_cases (fun n κ => (ih n κ).wf) q κ with ⟨grows, nothing⟩ | ⟨_, noFree, noPut, cache, run⟩
    · exact (ih q κ).grow began past clock.fresh nothing grows
    · exact (ih q κ).shrink noFree noPut cache run

end BiProject.Smr
