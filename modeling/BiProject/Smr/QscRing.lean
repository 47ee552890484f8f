import BiProject.Constant
import BiProject.Lib.Ring

/-!
# Quiescence rings and the local cache in front of them

`libs/bi/bi_smr.c`, `qsc_ring_len` to `qsc_ring_flush`. A node frees into a linear local cache
of `LOCAL_CACHE_QUEUE_SZ` entries; a full cache, or an explicit flush, moves all of it into the
node's circular ring, and each entry gets its own clock reading on the way. Entries leave the
ring at its head. The same code serves the ring of freed memory and the write logs.

A failed assertion (the ring is full, the cache has no room) is `none`. Clock readings are a
sequence `clk`, one element for each call of `bi_global_rtdsc` in the order of the calls.
-/

namespace BiProject.Smr
set_option autoImplicit false
open BiProject.Lib

/-- A pointer. -/
abbrev Addr := BitVec 64

/-- `struct quies_item`. -/
structure QuiesItem where
  mh : Addr
  sz : Nat
  tscFree : Nat
deriving DecidableEq, Repr

/-- `struct bi_qsc_ring`. -/
structure BiQscRing where
  head : Nat
  tail : Nat
  ring : Nat → QuiesItem

/-- `struct qsc_local_cache`; its `ql` is the ring it is paired with in `QscQueue`. -/
structure QscLocalCache where
  m : Nat → Addr
  sz : Nat → Nat
  cnt : Nat

/-- A local cache and the ring it flushes into. -/
structure QscQueue where
  lc : QscLocalCache
  ql : BiQscRing

def qscRingStructInit (p : BiQscRing) : BiQscRing := { p with head := 0, tail := 0 }

def qscLocalCacheInit (lc : QscLocalCache) : QscLocalCache := { lc with cnt := 0 }

def qscRingLen (ql : BiQscRing) : Nat := (ql.tail + maxQuiRingLen - ql.head) % maxQuiRingLen

def qscRingPeek (ql : BiQscRing) : Option QuiesItem :=
  if ql.head = ql.tail then none else some (ql.ring ql.head)

def qscRingDequeue (ql : BiQscRing) : Option QuiesItem × BiQscRing :=
  if ql.head = ql.tail then (none, ql)
  else (some (ql.ring ql.head), { ql with head := (ql.head + 1) % maxQuiRingLen })

/-- The `for` loop of `qsc_ring_enqueue_batch`: `n` iterations left, `i` done, `j` the slot to
fill. The assertion fails when the next slot is the head. -/
def enqueueLoop (head : Nat) (m : Nat → Addr) (sz clk : Nat → Nat) :
    Nat → Nat → Nat → (Nat → QuiesItem) → Option (Nat × (Nat → QuiesItem))
  | 0, _, j, ring => some (j, ring)
  | n + 1, i, j, ring =>
    if head = (j + 1) % maxQuiRingLen then none
    else enqueueLoop head m sz clk n (i + 1) ((j + 1) % maxQuiRingLen)
      (Function.update ring j ⟨m i, sz i, clk i⟩)

def qscRingEnqueueBatch (ql : BiQscRing) (m : Nat → Addr) (sz : Nat → Nat) (batch : Nat)
    (clk : Nat → Nat) : Option BiQscRing :=
  (enqueueLoop ql.head m sz clk batch 0 ql.tail ql.ring).map fun (j, ring) =>
    { ql with tail := j, ring := ring }

/-- Returns the number of entries moved. -/
def qscLocalCacheFlush (q : QscQueue) (clk : Nat → Nat) : Option (Nat × QscQueue) :=
  (qscRingEnqueueBatch q.ql q.lc.m q.lc.sz q.lc.cnt clk).map fun ql =>
    (q.lc.cnt, ⟨qscLocalCacheInit q.lc, ql⟩)

def qscLocalCachePut (q : QscQueue) (buf : Addr) (s : Nat) (clk : Nat → Nat) : Option QscQueue :=
  if q.lc.cnt < localCacheQueueSz then
    let lc : QscLocalCache :=
      { m := Function.update q.lc.m q.lc.cnt buf
        sz := Function.update q.lc.sz q.lc.cnt s
        cnt := q.lc.cnt + 1 }
    if lc.cnt = localCacheQueueSz then
      (qscLocalCacheFlush ⟨lc, q.ql⟩ clk).map Prod.snd
    else some ⟨lc, q.ql⟩
  else none

/-- The entries in the ring, from head to tail. -/
def BiQscRing.items (ql : BiQscRing) : List QuiesItem :=
  Ring.contents maxQuiRingLen ql.ring ql.head ql.tail

/-- The `while` loop of `bi_smr_reclaim` and `bi_wlog_reclaim`: dequeue as long as the oldest
entry's stamp is at most `qsc`. Returns the dequeued entries. As many
iterations as the ring has entries are enough (`reclaimLoop_spec`). -/
def reclaimLoop (qsc : Nat) : Nat → BiQscRing → List QuiesItem × BiQscRing
  | 0, ql => ([], ql)
  | n + 1, ql =>
    match qscRingPeek ql with
    | none => ([], ql)
    | some a =>
      if a.tscFree > qsc then ([], ql)
      else
        let rest := reclaimLoop qsc n (qscRingDequeue ql).2
        (a :: rest.1, rest.2)

/-- `bi_smr_reclaim` and `bi_wlog_reclaim` up to their bound: nothing happens on an empty ring. -/
def qscRingReclaim (qsc : Nat) (ql : BiQscRing) : List QuiesItem × BiQscRing :=
  match qscRingPeek ql with
  | none => ([], ql)
  | some _ => reclaimLoop qsc ql.items.length ql

/-- The `for` loop of `qsc_ring_flush` from slot `i`: the memory ranges it passes to
`clflush_range_opt`. -/
def qscRingFlushLoop (ql : BiQscRing) : Nat → Nat → List (Addr × Nat)
  | 0, _ => []
  | n + 1, i =>
    if i = ql.tail then []
    else ((ql.ring i).mh, (ql.ring i).sz) :: qscRingFlushLoop ql n ((i + 1) % maxQuiRingLen)

def qscRingFlush (ql : BiQscRing) : List (Addr × Nat) := qscRingFlushLoop ql ql.items.length ql.head

/-- The entries of the local cache, `m[0..cnt)` with their sizes. -/
def QscLocalCache.items (lc : QscLocalCache) : List (Addr × Nat) :=
  (List.range lc.cnt).map fun i => (lc.m i, lc.sz i)

/-- The ring indices are slot numbers. -/
structure BiQscRing.Wf (ql : BiQscRing) : Prop where
  head : ql.head < maxQuiRingLen
  tail : ql.tail < maxQuiRingLen

/-- Ring entries made of cache entries and the clock readings taken for them. -/
def stamped (clk : Nat → Nat) (entries : List (Addr × Nat)) : List QuiesItem :=
  entries.zipIdx.map fun e => ⟨e.1.1, e.1.2, clk e.2⟩

@[simp] theorem stamped_length (clk : Nat → Nat) (entries : List (Addr × Nat)) :
    (stamped clk entries).length = entries.length := by
  simp [stamped]

/-- Stamping leaves the entries as they are, -/
theorem stamped_entries (clk : Nat → Nat) (entries : List (Addr × Nat)) :
    (stamped clk entries).map (fun a => (a.mh, a.sz)) = entries := by
  simp only [stamped, List.map_map]
  exact List.zipIdx_map_fst 0 entries

/-- gives each the reading of its number, -/
theorem stamped_getElem? (clk : Nat → Nat) (entries : List (Addr × Nat)) (i : Nat) :
    (stamped clk entries)[i]? = entries[i]?.map fun e => ⟨e.1, e.2, clk i⟩ := by
  simp [stamped, List.getElem?_zipIdx]
  rfl

/-- and none but a reading. -/
theorem mem_stamped {clk : Nat → Nat} {entries : List (Addr × Nat)} {a : QuiesItem}
    (member : a ∈ stamped clk entries) : ∃ i, a.tscFree = clk i := by
  simp only [stamped, List.mem_map] at member
  obtain ⟨e, _, rfl⟩ := member
  exact ⟨e.2, rfl⟩

theorem maxQuiRingLen_pos : 0 < maxQuiRingLen := by decide

theorem localCacheQueueSz_pos : 0 < localCacheQueueSz := by decide

/-- One slot of the ring stays empty. -/
theorem BiQscRing.items_length_lt {ql : BiQscRing} (wf : ql.Wf) : ql.items.length < maxQuiRingLen :=
  Ring.contents_length_lt _ wf.head wf.tail

/-- A peek is at the oldest entry, -/
theorem qscRingPeek_eq {ql : BiQscRing} (wf : ql.Wf) : qscRingPeek ql = ql.items.head? := by
  unfold qscRingPeek
  split
  · next empty => rw [BiQscRing.items, empty, Ring.contents_self]; rfl
  · next occupied => rw [BiQscRing.items, Ring.contents_pop _ wf.head wf.tail occupied]; rfl

/-- which a dequeue takes off. -/
theorem qscRingDequeue_spec {ql : BiQscRing} (wf : ql.Wf) {a : QuiesItem} {rest : List QuiesItem}
    (front : ql.items = a :: rest) :
    (qscRingDequeue ql).1 = some a ∧ (qscRingDequeue ql).2.items = rest ∧ (qscRingDequeue ql).2.Wf := by
  have occupied : ql.head ≠ ql.tail := by
    intro same
    rw [BiQscRing.items, same, Ring.contents_self] at front
    cases front
  rw [BiQscRing.items, Ring.contents_pop _ wf.head wf.tail occupied] at front
  obtain ⟨first, others⟩ := List.cons.inj front
  unfold qscRingDequeue
  rw [if_neg occupied]
  exact ⟨congrArg some first, others, ⟨Ring.next_lt wf.head, wf.tail⟩⟩

/-- The entries `n` iterations of the enqueue loop write, from the `i`-th on. -/
def batchItems (m : Nat → Addr) (sz clk : Nat → Nat) (i n : Nat) : List QuiesItem :=
  (List.range n).map fun k => ⟨m (i + k), sz (i + k), clk (i + k)⟩

/-- A batch is its first entry and the rest. -/
theorem batchItems_succ (m : Nat → Addr) (sz clk : Nat → Nat) (i n : Nat) :
    batchItems m sz clk i (n + 1) = ⟨m i, sz i, clk i⟩ :: batchItems m sz clk (i + 1) n := by
  simp only [batchItems, List.range_succ_eq_map, List.map_cons, List.map_map, Nat.add_zero]
  congr 1
  apply List.map_congr_left
  intro k _
  simp [Nat.succ_eq_add_one, Nat.add_comm 1 k, Nat.add_assoc]

/-- With room for `n` more entries the enqueue loop appends exactly those, in order. -/
theorem enqueueLoop_spec {head : Nat} (m : Nat → Addr) (sz clk : Nat → Nat) (headBound : head < maxQuiRingLen) :
    ∀ (n i j : Nat) (ring : Nat → QuiesItem), j < maxQuiRingLen →
      (Ring.contents maxQuiRingLen ring head j).length + n < maxQuiRingLen →
      ∃ j' ring', enqueueLoop head m sz clk n i j ring = some (j', ring') ∧ j' < maxQuiRingLen ∧
        Ring.contents maxQuiRingLen ring' head j' =
          Ring.contents maxQuiRingLen ring head j ++ batchItems m sz clk i n := by
  intro n
  induction n with
  | zero =>
    intro i j ring bound _
    exact ⟨j, ring, rfl, bound, by simp [batchItems]⟩
  | succ n ih =>
    intro i j ring bound room
    have notFull : head ≠ Ring.next maxQuiRingLen j := by
      rw [ne_eq, Ring.full_iff ring headBound bound]
      omega
    have pushed := Ring.contents_push ring ⟨m i, sz i, clk i⟩ headBound bound notFull
    obtain ⟨j', ring', run, bound', grown⟩ := ih (i + 1) (Ring.next maxQuiRingLen j)
      (Function.update ring j ⟨m i, sz i, clk i⟩) (Ring.next_lt bound) (by
        rw [pushed, List.length_append, List.length_singleton]
        omega)
    refine ⟨j', ring', ?_, bound', ?_⟩
    · rw [enqueueLoop]
      exact (if_neg notFull).trans run
    · rw [grown, pushed, batchItems_succ, List.append_assoc, List.singleton_append]

/-- Without that room the assertion fails. -/
theorem enqueueLoop_full {head : Nat} (m : Nat → Addr) (sz clk : Nat → Nat) (headBound : head < maxQuiRingLen) :
    ∀ (n i j : Nat) (ring : Nat → QuiesItem), j < maxQuiRingLen →
      maxQuiRingLen ≤ (Ring.contents maxQuiRingLen ring head j).length + n →
      enqueueLoop head m sz clk n i j ring = none := by
  intro n
  induction n with
  | zero =>
    intro i j ring bound full
    have : (Ring.contents maxQuiRingLen ring head j).length < maxQuiRingLen :=
      Ring.contents_length_lt ring headBound bound
    omega
  | succ n ih =>
    intro i j ring bound full
    rw [enqueueLoop]
    split
    · rfl
    · next notFull =>
      have pushed := Ring.contents_push ring ⟨m i, sz i, clk i⟩ headBound bound notFull
      apply ih _ _ _ (Nat.mod_lt _ maxQuiRingLen_pos)
      change maxQuiRingLen ≤ (Ring.contents _ _ head (Ring.next maxQuiRingLen j)).length + n
      rw [pushed, List.length_append, List.length_singleton]
      omega

/-- The batch of a cache is its entries with their stamps. -/
theorem batchItems_eq_stamped (lc : QscLocalCache) (clk : Nat → Nat) :
    batchItems lc.m lc.sz clk 0 lc.cnt = stamped clk lc.items := by
  apply List.ext_getElem?
  intro i
  rw [stamped_getElem?]
  by_cases inside : i < lc.cnt <;> simp [batchItems, QscLocalCache.items, inside]

/-- **A cache flush** appends the stamped cache to the ring and empties the cache. -/
theorem qscLocalCacheFlush_spec {q : QscQueue} (wf : q.ql.Wf) (clk : Nat → Nat)
    (room : q.ql.items.length + q.lc.items.length < maxQuiRingLen) :
    ∃ q', qscLocalCacheFlush q clk = some (q.lc.items.length, q') ∧ q'.ql.Wf ∧ q'.lc.items = [] ∧
      q'.ql.items = q.ql.items ++ stamped clk q.lc.items ∧ q'.lc.cnt = 0 := by
  have count : q.lc.items.length = q.lc.cnt := by simp [QscLocalCache.items]
  rw [count] at room
  obtain ⟨j, ring, run, bound, grown⟩ :=
    enqueueLoop_spec q.lc.m q.lc.sz clk wf.head q.lc.cnt 0 q.ql.tail q.ql.ring wf.tail room
  refine ⟨⟨qscLocalCacheInit q.lc, { q.ql with tail := j, ring := ring }⟩, ?_, ⟨wf.head, bound⟩, rfl, ?_, rfl⟩
  · simp [qscLocalCacheFlush, qscRingEnqueueBatch, run, count]
  · rw [← batchItems_eq_stamped]
    exact grown

/-- A cache flush that returns had the room. -/
theorem qscLocalCacheFlush_room {q q' : QscQueue} (wf : q.ql.Wf) {clk : Nat → Nat} {r : Nat}
    (run : qscLocalCacheFlush q clk = some (r, q')) :
    q.ql.items.length + q.lc.items.length < maxQuiRingLen := by
  by_contra full
  have count : q.lc.items.length = q.lc.cnt := by simp [QscLocalCache.items]
  rw [count] at full
  have failed := enqueueLoop_full q.lc.m q.lc.sz clk wf.head q.lc.cnt 0 q.ql.tail q.ql.ring wf.tail
    (Nat.le_of_not_lt full)
  simp [qscLocalCacheFlush, qscRingEnqueueBatch, failed] at run

/-- The cache with one more entry. -/
theorem put_items (lc : QscLocalCache) (buf : Addr) (s : Nat) :
    QscLocalCache.items ⟨Function.update lc.m lc.cnt buf, Function.update lc.sz lc.cnt s, lc.cnt + 1⟩ =
      lc.items ++ [(buf, s)] := by
  simp only [QscLocalCache.items, List.range_succ, List.map_append, List.map_singleton, Function.update_self]
  congr 1
  apply List.map_congr_left
  intro i member
  have ne : i ≠ lc.cnt := Nat.ne_of_lt (List.mem_range.mp member)
  simp [Function.update_of_ne ne]

/-- What `qsc_local_cache_put` does to the cache and the ring read as lists. -/
def putItems (ring : List QuiesItem) (cache : List (Addr × Nat)) (e : Addr × Nat) (clk : Nat → Nat) :
    List QuiesItem × List (Addr × Nat) :=
  if (cache ++ [e]).length = localCacheQueueSz then (ring ++ stamped clk (cache ++ [e]), [])
  else (ring, cache ++ [e])

/-- **A put** appends one entry to the cache, and the full cache to the ring. -/
theorem qscLocalCachePut_spec {q : QscQueue} (wf : q.ql.Wf) (bound : q.lc.cnt < localCacheQueueSz)
    (buf : Addr) (s : Nat) (clk : Nat → Nat)
    (room : (putItems q.ql.items q.lc.items (buf, s) clk).1.length < maxQuiRingLen) :
    ∃ q', qscLocalCachePut q buf s clk = some q' ∧ q'.ql.Wf ∧ q'.lc.cnt < localCacheQueueSz ∧
      (q'.ql.items, q'.lc.items) = putItems q.ql.items q.lc.items (buf, s) clk := by
  have grown := put_items q.lc buf s
  have count : (q.lc.items ++ [(buf, s)]).length = q.lc.cnt + 1 := by simp [QscLocalCache.items]
  unfold putItems at room ⊢
  rw [qscLocalCachePut, if_pos bound]
  by_cases full : q.lc.cnt + 1 = localCacheQueueSz
  · rw [if_pos (count.trans full)] at room ⊢
    rw [if_pos full]
    obtain ⟨q', run, wf', empty, items, zero⟩ := qscLocalCacheFlush_spec
      (q := ⟨⟨Function.update q.lc.m q.lc.cnt buf, Function.update q.lc.sz q.lc.cnt s, q.lc.cnt + 1⟩, q.ql⟩)
      wf clk (by rw [grown]; simpa using room)
    refine ⟨q', by rw [run]; rfl, wf', ?_, ?_⟩
    · exact zero ▸ localCacheQueueSz_pos
    · rw [items, empty, grown]
  · rw [if_neg (fun h => full (count.symm.trans h))]
    rw [if_neg full]
    exact ⟨_, rfl, wf, Nat.lt_of_le_of_ne bound full, by rw [grown]⟩

/-- A put that returns had the room. -/
theorem qscLocalCachePut_room {q q' : QscQueue} (wf : q.ql.Wf) {buf : Addr} {s : Nat} {clk : Nat → Nat}
    (run : qscLocalCachePut q buf s clk = some q') :
    q.lc.cnt < localCacheQueueSz ∧
      (putItems q.ql.items q.lc.items (buf, s) clk).1.length < maxQuiRingLen := by
  have grown := put_items q.lc buf s
  have count : (q.lc.items ++ [(buf, s)]).length = q.lc.cnt + 1 := by simp [QscLocalCache.items]
  rw [qscLocalCachePut] at run
  split at run
  · next bound =>
    refine ⟨bound, ?_⟩
    unfold putItems
    by_cases full : q.lc.cnt + 1 = localCacheQueueSz
    · rw [if_pos (count.trans full)]
      rw [if_pos full, Option.map_eq_some_iff] at run
      obtain ⟨⟨r, q''⟩, flushed, _⟩ := run
      have room := qscLocalCacheFlush_room (by exact wf) flushed
      rw [grown] at room
      simpa using room
    · rw [if_neg (fun h => full (count.symm.trans h))]
      exact BiQscRing.items_length_lt wf
  · cases run

/-- **The dequeue loop** takes the longest prefix of eligible entries. -/
theorem reclaimLoop_spec (qsc : Nat) :
    ∀ (n : Nat) (ql : BiQscRing), ql.Wf → ql.items.length ≤ n →
      (reclaimLoop qsc n ql).1 = ql.items.takeWhile (fun a => decide (a.tscFree ≤ qsc)) ∧
      (reclaimLoop qsc n ql).2.items = ql.items.dropWhile (fun a => decide (a.tscFree ≤ qsc)) ∧
      (reclaimLoop qsc n ql).2.Wf := by
  intro n
  induction n with
  | zero =>
    intro ql wf short
    have empty : ql.items = [] := List.length_eq_zero_iff.mp (by omega)
    simp [reclaimLoop, empty, wf]
  | succ n ih =>
    intro ql wf short
    rw [reclaimLoop, qscRingPeek_eq wf]
    cases front : ql.items with
    | nil => simp [front, wf]
    | cons a rest =>
      obtain ⟨_, tail, wf'⟩ := qscRingDequeue_spec wf front
      simp only [List.head?_cons]
      by_cases eligible : a.tscFree ≤ qsc
      · rw [if_neg (Nat.not_lt.mpr eligible)]
        obtain ⟨taken, left, wf''⟩ := ih (qscRingDequeue ql).2 wf' (by
          rw [tail]
          rw [front, List.length_cons] at short
          omega)
        simp [eligible, taken, left, tail, wf'']
      · rw [if_pos (Nat.lt_of_not_le eligible)]
        simp [eligible, front, wf]

/-- The dequeue loop only moves the head. -/
theorem reclaimLoop_head (qsc : Nat) : ∀ (n : Nat) (ql : BiQscRing), ql.Wf →
    (reclaimLoop qsc n ql).2.head = (ql.head + (reclaimLoop qsc n ql).1.length) % maxQuiRingLen := by
  intro n
  induction n with
  | zero => intro ql wf; exact (Nat.mod_eq_of_lt wf.head).symm
  | succ n ih =>
    intro ql wf
    rw [reclaimLoop]
    cases peeked : qscRingPeek ql with
    | none => exact (Nat.mod_eq_of_lt wf.head).symm
    | some a =>
      have occupied : ql.head ≠ ql.tail := by
        intro same
        rw [qscRingPeek, if_pos same] at peeked
        cases peeked
      have head : (qscRingDequeue ql).2.head = (ql.head + 1) % maxQuiRingLen := by
        rw [qscRingDequeue, if_neg occupied]
      have wf' : (qscRingDequeue ql).2.Wf := by
        rw [qscRingDequeue, if_neg occupied]
        exact ⟨Nat.mod_lt _ maxQuiRingLen_pos, wf.tail⟩
      simp only
      split
      · exact (Nat.mod_eq_of_lt wf.head).symm
      · rw [ih _ wf', head, Nat.mod_add_mod, List.length_cons]
        congr 1
        omega

/-- What a reclaim does to the ring: it removes the longest eligible prefix. -/
theorem qscRingReclaim_spec (qsc : Nat) {ql : BiQscRing} (wf : ql.Wf) :
    (qscRingReclaim qsc ql).1 = ql.items.takeWhile (fun a => decide (a.tscFree ≤ qsc)) ∧
    (qscRingReclaim qsc ql).2.items = ql.items.dropWhile (fun a => decide (a.tscFree ≤ qsc)) ∧
    (qscRingReclaim qsc ql).2.Wf ∧
    (qscRingReclaim qsc ql).2.head = (ql.head + (qscRingReclaim qsc ql).1.length) % maxQuiRingLen := by
  rw [qscRingReclaim, qscRingPeek_eq wf]
  cases front : ql.items.head? with
  | none =>
    have empty : ql.items = [] := List.head?_eq_none_iff.mp front
    rw [empty]
    exact ⟨rfl, rfl, wf, (Nat.mod_eq_of_lt wf.head).symm⟩
  | some a =>
    obtain ⟨items, rest, wf'⟩ := reclaimLoop_spec qsc ql.items.length ql wf (Nat.le_refl _)
    exact ⟨items, rest, wf', reclaimLoop_head qsc _ ql wf⟩

/-- A reclaim takes the entries that are old enough, up to the first that is not. -/
theorem qscRingReclaim_takes {qsc : Nat} {ql : BiQscRing} (wf : ql.Wf) {items : List QuiesItem}
    (taken : ql.items.takeWhile (fun a => decide (a.tscFree ≤ qsc)) = items) :
    qscRingReclaim qsc ql = (items, (qscRingReclaim qsc ql).2) :=
  Prod.ext ((qscRingReclaim_spec qsc wf).1.trans taken) rfl

end BiProject.Smr
