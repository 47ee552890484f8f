import BiProject.Smr.QscRing
import BiProject.Smr.Quiesce
import Mathlib.Order.Monotone.Basic

/-!
# The free path of one node is one unbounded queue

`bi_smr_free`, `bi_smr_flush`, `bi_qsc_cache_flush` and `bi_smr_reclaim` of `libs/bi/bi_smr.c`,
run in any order on one node. `FreeQueue` states what they are for: a queue in three parts, the
objects handed back to the slab allocator, the stamped entries that wait and the entries that
are not stamped yet. The two buffers of the code refine it as long as the ring has the room
(`Fits`).
-/

namespace BiProject.Smr
set_option autoImplicit false

/-- `__ps_mhead_get` and `__ps_mhead_mem`. -/
def psMheadGet (mem : Addr) : Addr := mem - BitVec.ofNat 64 sizeofPsMheader
def psMheadMem (h : Addr) : Addr := h + BitVec.ofNat 64 sizeofPsMheader

/-- From a header one is back at its object. -/
theorem psMheadMem_psMheadGet (mem : Addr) : psMheadMem (psMheadGet mem) = mem :=
  BitVec.sub_add_cancel mem _

/-- The object a ring entry stands for. -/
def QuiesItem.obj (a : QuiesItem) : Addr := psMheadMem a.mh

/-- What the free path reads and does not change: the node and how many nodes and cores are
active, the slab size of each object (`bi_slab_objmem(m->slab->si)`) and the successive results
of `bi_global_rtdsc`. -/
structure Env where
  nodeId : Nat
  activeNodes : Nat
  activeCores : Nat
  slabObjmem : Addr → Nat
  clk : Nat → Nat

/-- The readings from the `k`-th on. -/
def Env.clkFrom (E : Env) (k : Nat) : Nat → Nat := fun i => E.clk (k + i)

/-- The node's buffers; `reads` counts the clock readings taken, `handed` is what was passed to
`bi_slab_free`, in order. -/
structure SmrNode where
  smr : QscQueue
  wlog : Nat → QscQueue
  reads : Nat
  handed : List Addr

/-- `bi_smr_free` on the node's queue. -/
def biSmrFree (slabObjmem : Addr → Nat) (q : QscQueue) (buf : Addr) (clk : Nat → Nat) : Option QscQueue :=
  if buf = 0 then none
  else qscLocalCachePut q (psMheadGet buf) (slabObjmem (psMheadGet buf)) clk

/-- `bi_smr_reclaim`: the count it returns, the objects it hands to `bi_slab_free`, the ring. -/
def biSmrReclaim (nodeId activeNodes activeCores : Nat) (times : Nat → Nat → Parsec) (ql : BiQscRing)
    (tsc : Nat) : Nat × List Addr × BiQscRing :=
  let result := qscRingReclaim (biQuiesce nodeId activeNodes activeCores times tsc) ql
  (result.1.length, result.1.map QuiesItem.obj, result.2)

/-- The second loop of `bi_smr_flush`, over the node's own ring and those of the other nodes: the
count it returns and the ranges it invalidates. -/
def smrFlushLoop (nodeId activeNodes : Nat) (rings : Nat → BiQscRing) : Nat × List (Addr × Nat) :=
  (List.range activeNodes).foldl (fun (r, flushed) i =>
    let ql := rings ((nodeId + i) % activeNodes)
    (r + qscRingLen ql, flushed ++ qscRingFlush ql)) (0, [])

/-- `bi_smr_flush`; `others` are the rings of the other nodes as this node reads them. -/
def biSmrFlush (nodeId activeNodes : Nat) (others : Nat → BiQscRing) (q : QscQueue) (clk : Nat → Nat) :
    Option ((Nat × List (Addr × Nat)) × QscQueue) :=
  (qscLocalCacheFlush q clk).map fun (_, q') =>
    (smrFlushLoop nodeId activeNodes (Function.update others nodeId q'.ql), q')

/-- The loop of `bi_qsc_cache_flush` over the write-log caches: `n` left, `i` the next one, `r`
entries moved so far. -/
def wlogCacheFlushLoop (clk : Nat → Nat) : Nat → Nat → Nat → (Nat → QscQueue) → Option (Nat × (Nat → QscQueue))
  | 0, _, r, wlog => some (r, wlog)
  | n + 1, i, r, wlog =>
    match qscLocalCacheFlush (wlog i) (fun k => clk (r + k)) with
    | none => none
    | some (ri, q) => wlogCacheFlushLoop clk n (i + 1) (r + ri) (Function.update wlog i q)

/-- `bi_qsc_cache_flush`: the number of entries moved, which is also the number of readings. -/
def biQscCacheFlush (activeCores : Nat) (smr : QscQueue) (wlog : Nat → QscQueue) (clk : Nat → Nat) :
    Option (Nat × QscQueue × (Nat → QscQueue)) :=
  match qscLocalCacheFlush smr clk with
  | none => none
  | some (r, smr') =>
    (wlogCacheFlushLoop clk activeCores 0 r wlog).map fun (r', wlog') => (r', smr', wlog')

/-- The calls of the free path. `smrFlush` carries the other nodes' rings, `smrReclaim` the
section records, as the node reads them in that call. -/
inductive FreeOp where
  | smrFree (buf : Addr)
  | smrFlush (others : Nat → BiQscRing)
  | qscCacheFlush
  | smrReclaim (times : Nat → Nat → Parsec)

/-- One call; `none` is a failed assertion. -/
def SmrNode.step (E : Env) (σ : SmrNode) : FreeOp → Option SmrNode
  | .smrFree buf =>
    (biSmrFree E.slabObjmem σ.smr buf (E.clkFrom σ.reads)).map fun q =>
      { σ with smr := q, reads := σ.reads + (q.ql.items.length - σ.smr.ql.items.length) }
  | .smrFlush others =>
    (biSmrFlush E.nodeId E.activeNodes others σ.smr (E.clkFrom σ.reads)).map fun (_, q) =>
      { σ with smr := q, reads := σ.reads + σ.smr.lc.cnt }
  | .qscCacheFlush =>
    (biQscCacheFlush E.activeCores σ.smr σ.wlog (E.clkFrom σ.reads)).map fun (r, q, wlog) =>
      { σ with smr := q, wlog := wlog, reads := σ.reads + r }
  | .smrReclaim times =>
    let result := biSmrReclaim E.nodeId E.activeNodes E.activeCores times σ.smr.ql (E.clk σ.reads)
    some { σ with
      smr := { σ.smr with ql := result.2.2 }
      reads := if σ.smr.ql.head = σ.smr.ql.tail then σ.reads else σ.reads + 1
      handed := σ.handed ++ result.2.1 }

/-- The calls in order. -/
def SmrNode.run (E : Env) : SmrNode → List FreeOp → Option SmrNode
  | σ, [] => some σ
  | σ, op :: ops => (σ.step E op).bind fun σ' => σ'.run E ops

/-- A node after `bi_qsc_cache_alloc` over rings that were just initialised; the arrays hold
whatever was there. -/
structure SmrNode.Init (σ : SmrNode) : Prop where
  smr : σ.smr.ql = qscRingStructInit σ.smr.ql ∧ σ.smr.lc = qscLocalCacheInit σ.smr.lc
  wlog : ∀ i, (σ.wlog i).ql = qscRingStructInit (σ.wlog i).ql ∧ (σ.wlog i).lc = qscLocalCacheInit (σ.wlog i).lc
  reads : σ.reads = 0
  handed : σ.handed = []

/-- What the free path is for: objects handed back, entries waiting with their stamp, entries
not stamped yet. -/
structure FreeQueue where
  handed : List Addr
  ring : List QuiesItem
  cache : List (Addr × Nat)
  reads : Nat

/-- Nothing has been freed. -/
def FreeQueue.empty : FreeQueue := ⟨[], [], [], 0⟩

/-- One call on the queue. A reclaim takes every entry whose stamp is at most the quiescence
bound, wherever it stands. -/
def FreeQueue.step (E : Env) (q : FreeQueue) : FreeOp → FreeQueue
  | .smrFree buf =>
    let (ring, cache) := putItems q.ring q.cache (psMheadGet buf, E.slabObjmem (psMheadGet buf)) (E.clkFrom q.reads)
    { q with ring := ring, cache := cache, reads := q.reads + (ring.length - q.ring.length) }
  | .smrFlush _ | .qscCacheFlush =>
    { q with ring := q.ring ++ stamped (E.clkFrom q.reads) q.cache, cache := [], reads := q.reads + q.cache.length }
  | .smrReclaim times =>
    let qsc := biQuiesce E.nodeId E.activeNodes E.activeCores times (E.clk q.reads)
    { q with
      handed := q.handed ++ (q.ring.filter fun a => decide (a.tscFree ≤ qsc)).map QuiesItem.obj
      ring := q.ring.filter fun a => !decide (a.tscFree ≤ qsc)
      reads := if q.ring = [] then q.reads else q.reads + 1 }

/-- Any number of operations. -/
def FreeQueue.run (E : Env) (q : FreeQueue) (ops : List FreeOp) : FreeQueue := ops.foldl (FreeQueue.step E) q

/-- The object a call passes to `bi_smr_free`. -/
def FreeOp.freed : FreeOp → List Addr
  | .smrFree buf => [buf]
  | _ => []

/-- Every state of the run holds fewer than `MAX_QUI_RING_LEN` entries in the ring, and no call
frees `NULL`. -/
def Fits (E : Env) : FreeQueue → List FreeOp → Prop
  | q, [] => q.ring.length < maxQuiRingLen
  | q, op :: ops => q.ring.length < maxQuiRingLen ∧ 0 ∉ op.freed ∧ Fits E (q.step E op) ops

instance Fits.decidable (E : Env) : ∀ (q : FreeQueue) (ops : List FreeOp), Decidable (Fits E q ops)
  | q, [] => inferInstanceAs (Decidable (q.ring.length < maxQuiRingLen))
  | q, op :: ops =>
    have := Fits.decidable E (q.step E op) ops
    inferInstanceAs (Decidable (q.ring.length < maxQuiRingLen ∧ 0 ∉ op.freed ∧ Fits E (q.step E op) ops))

/-- There is room for what comes next. -/
theorem Fits.head {E : Env} {q : FreeQueue} {ops : List FreeOp} (fits : Fits E q ops) :
    q.ring.length < maxQuiRingLen := by
  cases ops with
  | nil => exact fits
  | cons op ops => exact fits.1

/-- The objects of the three parts, oldest first. -/
def FreeQueue.objs (q : FreeQueue) : List Addr :=
  q.handed ++ q.ring.map QuiesItem.obj ++ q.cache.map fun e => psMheadMem e.1

/-- Stamps do not decrease towards the tail and none is later than a reading still to come. -/
structure FreeQueue.Ordered (E : Env) (q : FreeQueue) : Prop where
  stamps : q.ring.Pairwise fun a b => a.tscFree ≤ b.tscFree
  past : ∀ a ∈ q.ring, ∀ k, q.reads ≤ k → a.tscFree ≤ E.clk k

section Queue

variable {E : Env} {q : FreeQueue}

/-- In stamp order the eligible entries are a prefix. -/
theorem takeWhile_eligible (qsc : Nat) : ∀ {items : List QuiesItem},
    items.Pairwise (fun a b => a.tscFree ≤ b.tscFree) →
    items.takeWhile (fun a => decide (a.tscFree ≤ qsc)) = items.filter (fun a => decide (a.tscFree ≤ qsc)) ∧
    items.dropWhile (fun a => decide (a.tscFree ≤ qsc)) = items.filter (fun a => !decide (a.tscFree ≤ qsc)) := by
  intro items
  induction items with
  | nil => intro _; exact ⟨rfl, rfl⟩
  | cons a rest ih =>
    intro sorted
    obtain ⟨head, tail⟩ := List.pairwise_cons.mp sorted
    by_cases eligible : a.tscFree ≤ qsc
    · simpa [eligible] using ih tail
    · have later : ∀ b ∈ rest, ¬ b.tscFree ≤ qsc := fun b member below =>
        eligible (Nat.le_trans (head b member) below)
      have none : rest.filter (fun a => decide (a.tscFree ≤ qsc)) = [] :=
        List.filter_eq_nil_iff.mpr (fun b member => by simpa using later b member)
      have all : rest.filter (fun a => !decide (a.tscFree ≤ qsc)) = rest :=
        List.filter_eq_self.mpr (fun b member => by simpa using later b member)
      constructor
      · rw [List.takeWhile_cons_of_neg (by simpa using eligible),
          List.filter_cons_of_neg (by simpa using eligible), none]
      · rw [List.dropWhile_cons_of_neg (by simpa using eligible),
          List.filter_cons_of_pos (by simpa using eligible), all]

/-- Stamping `entries` with readings from the `k`-th on keeps the ring in stamp order. -/
theorem FreeQueue.Ordered.append (mono : Monotone E.clk) (ordered : q.Ordered E) (entries : List (Addr × Nat))
    (handed : List Addr) (cache : List (Addr × Nat)) :
    FreeQueue.Ordered E ⟨handed, q.ring ++ stamped (E.clkFrom q.reads) entries, cache, q.reads + entries.length⟩ := by
  have stamp : ∀ i a, (stamped (E.clkFrom q.reads) entries)[i]? = some a → a.tscFree = E.clk (q.reads + i) := by
    intro i a found
    rw [stamped_getElem?, Option.map_eq_some_iff] at found
    obtain ⟨e, _, rfl⟩ := found
    rfl
  constructor
  · refine List.pairwise_append.mpr ⟨ordered.stamps, ?_, ?_⟩
    · rw [List.pairwise_iff_getElem]
      intro i j hi hj less
      rw [stamp i _ (List.getElem?_eq_getElem hi), stamp j _ (List.getElem?_eq_getElem hj)]
      exact mono (by omega)
    · intro a member b new
      obtain ⟨i, found⟩ := List.getElem?_of_mem new
      rw [stamp i b found]
      exact ordered.past a member _ (Nat.le_add_right _ _)
  · intro a member k later
    rcases List.mem_append.mp member with old | new
    · exact ordered.past a old k (Nat.le_trans (Nat.le_add_right _ _) later)
    · obtain ⟨i, found⟩ := List.getElem?_of_mem new
      have inside : i < entries.length := by
        have := (List.getElem?_eq_some_iff.mp found).1
        simpa using this
      rw [stamp i a found]
      have last : q.reads + entries.length ≤ k := later
      exact mono (by omega)

/-- **An operation keeps the stamps in order.** -/
theorem FreeQueue.Ordered.step (mono : Monotone E.clk) (ordered : q.Ordered E) (op : FreeOp) :
    (q.step E op).Ordered E := by
  cases op with
  | smrFree buf =>
    simp only [FreeQueue.step, putItems]
    split
    · have := ordered.append mono (q.cache ++ [(psMheadGet buf, E.slabObjmem (psMheadGet buf))]) q.handed []
      simpa using this
    · exact ⟨ordered.stamps, fun a member k later => ordered.past a member k (Nat.le_trans (Nat.le_add_right _ _) later)⟩
  | smrFlush others => exact ordered.append mono q.cache q.handed []
  | qscCacheFlush => exact ordered.append mono q.cache q.handed []
  | smrReclaim times =>
    refine ⟨ordered.stamps.filter _, fun a member k later => ordered.past a (List.mem_filter.mp member).1 k ?_⟩
    simp only [FreeQueue.step] at later
    split at later <;> omega

/-- The objects of stamped entries. -/
theorem stamped_objs (clk : Nat → Nat) (entries : List (Addr × Nat)) :
    (stamped clk entries).map QuiesItem.obj = entries.map fun e => psMheadMem e.1 := by
  have mapped := congrArg (List.map fun e : Addr × Nat => psMheadMem e.1) (stamped_entries clk entries)
  rw [← mapped, List.map_map]
  rfl

/-- **Nothing is lost, duplicated or reordered** by a call. -/
theorem FreeQueue.objs_step (ordered : q.Ordered E) (op : FreeOp) :
    (q.step E op).objs = q.objs ++ op.freed := by
  cases op with
  | smrFree buf =>
    simp only [FreeQueue.step, putItems, FreeOp.freed]
    split
    · simp [FreeQueue.objs, stamped_objs, psMheadMem_psMheadGet]
    · simp [FreeQueue.objs, psMheadMem_psMheadGet]
  | smrFlush others => simp [FreeQueue.step, FreeQueue.objs, FreeOp.freed, stamped_objs]
  | qscCacheFlush => simp [FreeQueue.step, FreeQueue.objs, FreeOp.freed, stamped_objs]
  | smrReclaim times =>
    obtain ⟨taken, left⟩ := takeWhile_eligible
      (biQuiesce E.nodeId E.activeNodes E.activeCores times (E.clk q.reads)) ordered.stamps
    simp only [FreeQueue.step, FreeQueue.objs, FreeOp.freed, ← taken, ← left, List.append_nil, List.append_assoc]
    rw [← List.append_assoc (List.map _ _) (List.map _ _), ← List.map_append, List.takeWhile_append_dropWhile]

/-- **Every run hands back the freed objects in order.** -/
theorem FreeQueue.run_spec (mono : Monotone E.clk) : ∀ (ops : List FreeOp) (q : FreeQueue), q.Ordered E →
    (q.run E ops).Ordered E ∧ (q.run E ops).objs = q.objs ++ ops.flatMap FreeOp.freed := by
  intro ops
  induction ops with
  | nil => intro q ordered; exact ⟨ordered, by simp [FreeQueue.run]⟩
  | cons op ops ih =>
    intro q ordered
    obtain ⟨ordered', objs⟩ := ih (q.step E op) (ordered.step mono op)
    refine ⟨ordered', ?_⟩
    rw [FreeQueue.run, List.foldl_cons]
    rw [FreeQueue.run] at objs
    rw [objs, FreeQueue.objs_step ordered, List.flatMap_cons, List.append_assoc]

end Queue

/-- The buffers of a node hold what the queue says. -/
structure SmrNode.Sim (σ : SmrNode) (q : FreeQueue) : Prop where
  wf : σ.smr.ql.Wf
  room : σ.smr.lc.cnt < localCacheQueueSz
  ring : σ.smr.ql.items = q.ring
  cache : σ.smr.lc.items = q.cache
  reads : σ.reads = q.reads
  handed : σ.handed = q.handed
  wlogWf : ∀ i, (σ.wlog i).ql.Wf
  wlogEmpty : ∀ i, (σ.wlog i).lc.cnt = 0

/-- Flushing empty write-log caches moves nothing. -/
theorem wlogCacheFlushLoop_empty (clk : Nat → Nat) : ∀ (n i r : Nat) (wlog : Nat → QscQueue),
    (∀ i, (wlog i).ql.Wf) → (∀ i, (wlog i).lc.cnt = 0) →
    ∃ wlog', wlogCacheFlushLoop clk n i r wlog = some (r, wlog') ∧
      (∀ i, (wlog' i).ql.Wf) ∧ ∀ i, (wlog' i).lc.cnt = 0 := by
  intro n
  induction n with
  | zero => intro i r wlog wf empty; exact ⟨wlog, rfl, wf, empty⟩
  | succ n ih =>
    intro i r wlog wf empty
    have none : (wlog i).lc.items = [] := by simp [QscLocalCache.items, empty i]
    obtain ⟨q, run, wf', _, _, zero⟩ := qscLocalCacheFlush_spec (wf i) (fun k => clk (r + k)) (by
      rw [none]
      simpa using BiQscRing.items_length_lt (wf i))
    obtain ⟨wlog', rest, wfs, empties⟩ := ih (i + 1) (r + 0) (Function.update wlog i q)
      (fun j => by by_cases same : j = i <;> simp [same, wf', wf])
      (fun j => by by_cases same : j = i <;> simp [same, zero, empty])
    refine ⟨wlog', ?_, wfs, empties⟩
    rw [wlogCacheFlushLoop, run, none]
    exact rest

/-- What `bi_smr_reclaim` takes. -/
theorem biSmrReclaim_spec (nodeId activeNodes activeCores : Nat) (times : Nat → Nat → Parsec) {ql : BiQscRing}
    (wf : ql.Wf) (tsc : Nat) (sorted : ql.items.Pairwise fun a b => a.tscFree ≤ b.tscFree) :
    let qsc := biQuiesce nodeId activeNodes activeCores times tsc
    let eligible := ql.items.filter fun a => decide (a.tscFree ≤ qsc)
    let result := biSmrReclaim nodeId activeNodes activeCores times ql tsc
    result.1 = eligible.length ∧ result.2.1 = eligible.map QuiesItem.obj ∧
      result.2.2.items = ql.items.filter (fun a => !decide (a.tscFree ≤ qsc)) ∧ result.2.2.Wf := by
  intro qsc eligible result
  obtain ⟨taken, left⟩ := takeWhile_eligible qsc sorted
  obtain ⟨items, rest, wf', _⟩ := qscRingReclaim_spec qsc wf
  rw [taken] at items
  rw [left] at rest
  exact ⟨congrArg List.length items, congrArg (List.map QuiesItem.obj) items, rest, wf'⟩

/-- **One call**: the buffers follow the queue. -/
theorem SmrNode.Sim.step {E : Env} {σ : SmrNode} {q : FreeQueue} (sim : σ.Sim q) (ordered : q.Ordered E)
    {op : FreeOp} (nonnull : 0 ∉ op.freed) (fits : (q.step E op).ring.length < maxQuiRingLen) :
    ∃ σ', σ.step E op = some σ' ∧ σ'.Sim (q.step E op) := by
  have count : σ.smr.lc.items.length = σ.smr.lc.cnt := by simp [QscLocalCache.items]
  cases op with
  | smrFree buf =>
    have notNull : buf ≠ 0 := by
      intro null
      exact nonnull (by simp [FreeOp.freed, null])
    obtain ⟨q', run, wf, room, items⟩ := qscLocalCachePut_spec sim.wf sim.room (psMheadGet buf)
      (E.slabObjmem (psMheadGet buf)) (E.clkFrom σ.reads) (by
        rw [sim.ring, sim.cache, sim.reads]
        exact fits)
    rw [sim.ring, sim.cache, sim.reads] at items
    have ring : q'.ql.items = _ := congrArg Prod.fst items
    have cache : q'.lc.items = _ := congrArg Prod.snd items
    refine ⟨{ σ with smr := q', reads := σ.reads + (q'.ql.items.length - σ.smr.ql.items.length) }, ?_,
      ⟨wf, room, ring, cache, ?_, sim.handed, sim.wlogWf, sim.wlogEmpty⟩⟩
    · rw [SmrNode.step, biSmrFree, if_neg notNull, run]
      rfl
    · simp only [FreeQueue.step]
      rw [sim.reads, ring, sim.ring]
  | smrFlush others =>
    obtain ⟨q', run, wf, empty, items, zero⟩ := qscLocalCacheFlush_spec sim.wf (E.clkFrom σ.reads) (by
      rw [sim.ring, sim.cache]
      simpa [FreeQueue.step] using fits)
    rw [sim.ring, sim.cache, sim.reads] at items
    refine ⟨{ σ with smr := q', reads := σ.reads + σ.smr.lc.cnt }, ?_,
      ⟨wf, zero ▸ localCacheQueueSz_pos, items, empty, ?_, sim.handed, sim.wlogWf, sim.wlogEmpty⟩⟩
    · rw [SmrNode.step, biSmrFlush, run]
      rfl
    · simp only [FreeQueue.step]
      rw [← count, sim.cache, sim.reads]
  | qscCacheFlush =>
    obtain ⟨q', run, wf, empty, items, zero⟩ := qscLocalCacheFlush_spec sim.wf (E.clkFrom σ.reads) (by
      rw [sim.ring, sim.cache]
      simpa [FreeQueue.step] using fits)
    obtain ⟨wlog', logs, wfs, empties⟩ := wlogCacheFlushLoop_empty (E.clkFrom σ.reads) E.activeCores 0
      σ.smr.lc.items.length σ.wlog sim.wlogWf sim.wlogEmpty
    rw [sim.ring, sim.cache, sim.reads] at items
    refine ⟨{ σ with smr := q', wlog := wlog', reads := σ.reads + σ.smr.lc.items.length }, ?_,
      ⟨wf, zero ▸ localCacheQueueSz_pos, items, empty, ?_, sim.handed, wfs, empties⟩⟩
    · rw [SmrNode.step, biQscCacheFlush, run]
      simp only [logs]
      rfl
    · simp only [FreeQueue.step]
      rw [sim.cache, sim.reads]
  | smrReclaim times =>
    have sorted := ordered.stamps
    rw [← sim.ring] at sorted
    obtain ⟨_, objs, items, wf⟩ := biSmrReclaim_spec E.nodeId E.activeNodes E.activeCores times sim.wf
      (E.clk σ.reads) sorted
    have idle : σ.smr.ql.head = σ.smr.ql.tail ↔ q.ring = [] := by
      rw [← sim.ring]
      exact (Lib.Ring.contents_eq_nil_iff _ sim.wf.head).symm
    rw [sim.ring, sim.reads] at items objs
    rw [sim.reads] at wf
    refine ⟨{ σ with
      smr := { σ.smr with ql := _ }
      reads := if σ.smr.ql.head = σ.smr.ql.tail then σ.reads else σ.reads + 1
      handed := _ }, by rw [SmrNode.step, sim.reads], ⟨wf, sim.room, items, sim.cache, ?_, ?_, sim.wlogWf, sim.wlogEmpty⟩⟩
    · simp only [FreeQueue.step, idle, sim.reads]
    · simp only [FreeQueue.step]
      rw [objs, sim.handed]

/-- A node begins as the empty queue. -/
theorem SmrNode.Init.sim {σ : SmrNode} (init : σ.Init) : σ.Sim FreeQueue.empty where
  wf := by rw [init.smr.1]; exact ⟨maxQuiRingLen_pos, maxQuiRingLen_pos⟩
  room := by rw [init.smr.2]; exact localCacheQueueSz_pos
  ring := by rw [init.smr.1]; exact Lib.Ring.contents_self _ _ _
  cache := by rw [init.smr.2]; rfl
  reads := init.reads
  handed := init.handed
  wlogWf := fun i => by rw [(init.wlog i).1]; exact ⟨maxQuiRingLen_pos, maxQuiRingLen_pos⟩
  wlogEmpty := fun i => by rw [(init.wlog i).2]; rfl

/-- **Every run**: with the room, no assertion fails and the buffers follow the queue. -/
theorem SmrNode.Sim.run {E : Env} (mono : Monotone E.clk) : ∀ (ops : List FreeOp) (σ : SmrNode) (q : FreeQueue),
    σ.Sim q → q.Ordered E → Fits E q ops → ∃ σ', σ.run E ops = some σ' ∧ σ'.Sim (q.run E ops) := by
  intro ops
  induction ops with
  | nil => intro σ q sim _ _; exact ⟨σ, rfl, sim⟩
  | cons op ops ih =>
    intro σ q sim ordered fits
    obtain ⟨_, nonnull, rest⟩ := fits
    obtain ⟨σ', step, sim'⟩ := sim.step ordered nonnull rest.head
    obtain ⟨σ'', run, sim''⟩ := ih σ' (q.step E op) sim' (ordered.step mono op) rest
    exact ⟨σ'', by rw [SmrNode.run, step]; exact run, sim''⟩

/-- The empty queue has its stamps in order. -/
theorem FreeQueue.empty_ordered (E : Env) : FreeQueue.empty.Ordered E :=
  ⟨List.Pairwise.nil, fun _ member => absurd member List.not_mem_nil⟩

/-- **The free path is exact.** Any sequence of calls that keeps fewer than `MAX_QUI_RING_LEN`
entries in the ring runs without a failed assertion. Afterwards the objects passed to
`bi_smr_free` are those handed to `bi_slab_free`, those in the ring and those in the local cache,
in this order; the cache is not full; the stamps do not decrease from head to tail; and a reclaim
in that state removes exactly the entries stamped at or before the value of `bi_quiesce`, hands
over their objects and returns their number. -/
theorem free_path_exact {E : Env} (mono : Monotone E.clk) {σ₀ : SmrNode} (init : σ₀.Init) {ops : List FreeOp}
    (fits : Fits E FreeQueue.empty ops) :
    ∃ σ, σ₀.run E ops = some σ ∧
      ops.flatMap FreeOp.freed =
        σ.handed ++ σ.smr.ql.items.map QuiesItem.obj ++
          (List.range σ.smr.lc.cnt).map (fun i => psMheadMem (σ.smr.lc.m i)) ∧
      σ.smr.lc.cnt < localCacheQueueSz ∧
      σ.smr.ql.items.Pairwise (fun a b => a.tscFree ≤ b.tscFree) ∧
      ∀ times : Nat → Nat → Parsec,
        let qsc := biQuiesce E.nodeId E.activeNodes E.activeCores times (E.clk σ.reads)
        let eligible := σ.smr.ql.items.filter fun a => decide (a.tscFree ≤ qsc)
        ∃ σ', σ.step E (.smrReclaim times) = some σ' ∧
          (biSmrReclaim E.nodeId E.activeNodes E.activeCores times σ.smr.ql (E.clk σ.reads)).1 = eligible.length ∧
          σ'.handed = σ.handed ++ eligible.map QuiesItem.obj ∧
          σ'.smr.ql.items = σ.smr.ql.items.filter (fun a => !decide (a.tscFree ≤ qsc)) ∧
          σ'.smr.lc = σ.smr.lc := by
  obtain ⟨σ, run, sim⟩ := SmrNode.Sim.run mono ops σ₀ FreeQueue.empty init.sim (FreeQueue.empty_ordered E) fits
  obtain ⟨ordered, objs⟩ := FreeQueue.run_spec mono ops FreeQueue.empty (FreeQueue.empty_ordered E)
  have sorted := ordered.stamps
  rw [← sim.ring] at sorted
  refine ⟨σ, run, ?_, sim.room, sorted, fun times => ?_⟩
  · have cached : (FreeQueue.run E FreeQueue.empty ops).cache.map (fun e => psMheadMem e.1) =
        (List.range σ.smr.lc.cnt).map fun i => psMheadMem (σ.smr.lc.m i) := by
      rw [← sim.cache, QscLocalCache.items, List.map_map]
      rfl
    rw [FreeQueue.objs, cached, ← sim.handed, ← sim.ring] at objs
    exact objs.symm
  · obtain ⟨count, handed, left, _⟩ := biSmrReclaim_spec E.nodeId E.activeNodes E.activeCores times sim.wf
      (E.clk σ.reads) sorted
    exact ⟨_, rfl, count, congrArg (σ.handed ++ ·) handed, left, rfl⟩

/-- Two frees, a cache flush, a reclaim that takes both and a third free. -/
theorem free_path_exact_two_objects :
    let E : Env := ⟨0, 1, 1, fun _ => 64, fun k => flushGracePeriod * (k + 1)⟩
    let blank : QscQueue := ⟨⟨fun _ => 0, fun _ => 0, 0⟩, ⟨0, 0, fun _ => ⟨0, 0, 0⟩⟩⟩
    let ops : List FreeOp :=
      [.smrFree 4096, .smrFree 8192, .qscCacheFlush, .smrReclaim (fun _ _ => parsecStructInit), .smrFree 12288]
    ∃ σ, SmrNode.run E ⟨blank, fun _ => blank, 0, []⟩ ops = some σ ∧
      [4096, 8192, 12288] = σ.handed ++ σ.smr.ql.items.map QuiesItem.obj ++
        (List.range σ.smr.lc.cnt).map (fun i => psMheadMem (σ.smr.lc.m i)) := by
  intro E blank ops
  have mono : Monotone E.clk := fun a b le => Nat.mul_le_mul_left _ (Nat.succ_le_succ le)
  have init : SmrNode.Init ⟨blank, fun _ => blank, 0, []⟩ := ⟨⟨rfl, rfl⟩, fun _ => ⟨rfl, rfl⟩, rfl, rfl⟩
  have fits : Fits E FreeQueue.empty ops := by decide
  obtain ⟨σ, run, objs, _⟩ := free_path_exact mono init fits
  exact ⟨σ, run, objs⟩

end BiProject.Smr
