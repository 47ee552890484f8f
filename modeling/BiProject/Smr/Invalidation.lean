import BiProject.Smr.Reclamation

/-!
# Entries leave a ring only after every node has invalidated them

`bi_smr_flush` and `bi_wlog_flush` walk the rings of the other nodes while the owners enqueue and
dequeue, on copies of the ring that were fetched at different moments. Entries are numbered from
the first one ever put. A walk that starts after entry `k` was put covers it unless it was taken
meanwhile: the copies were fetched after the walk began, so the head they show is not behind what
was taken, the tail is not before `k`, and a slot that is copied while `k` is in the ring holds
`k`. The stamp of an entry, the clock lag and the grace period place a whole walk of every node
between the put and the reclaim.
-/

namespace BiProject.Smr
set_option autoImplicit false
open BiProject.Lib

/-- Node `m` has executed `clflush_range_opt` on entry number `k` of ring `κ` of node `q` after the
entry was put into the ring. -/
def InvalidatedBy (m q : Nat) (κ : RingKind) (k : Nat) (h : History) : Prop :=
  ∃ later earlier it κ', h = later ++ earlier ∧ (puts q κ earlier)[k]? = some it ∧
    ∃ e ∈ later, e.ev = .clflush m κ' it.mh it.sz

/-- Node `m` has invalidated every entry with a number below `base` that is still in the ring. -/
def Covered (m q : Nat) (κ : RingKind) (base : Nat) (h : History) : Prop :=
  ∀ k, (takes q κ h).length ≤ k → k < base → InvalidatedBy m q κ k h

section Monotone
variable {m q k base : Nat} {κ : RingKind} {h : History}

theorem InvalidatedBy.cons (done : InvalidatedBy m q κ k h) (e : Timed) : InvalidatedBy m q κ k (e :: h) := by
  obtain ⟨later, earlier, it, κ', rfl, put, x, member, flush⟩ := done
  exact ⟨e :: later, earlier, it, κ', rfl, put, x, List.mem_cons_of_mem _ member, flush⟩

theorem takes_length_le (e : Timed) : (takes q κ h).length ≤ (takes q κ (e :: h)).length :=
  (takes_suffix [e] h).length_le

theorem puts_length_le (e : Timed) : (puts q κ h).length ≤ (puts q κ (e :: h)).length :=
  (puts_suffix [e] h).length_le

theorem Covered.cons (covered : Covered m q κ base h) (e : Timed) : Covered m q κ base (e :: h) :=
  fun k left below => (covered k (Nat.le_trans (takes_length_le e) left) below).cons e

end Monotone

/-- A head and a tail read since the walk began: the head is not beyond what was taken, the tail
not before what was put by then. -/
def Window (base : Nat) (h : History) (q : Nat) (κ : RingKind) (head tail : Nat) : Prop :=
  ∃ H T, head = H % maxQuiRingLen ∧ tail = T % maxQuiRingLen ∧ H ≤ T ∧ T < H + maxQuiRingLen ∧ base ≤ T ∧
    H ≤ (takes q κ h).length

/-- What a node's copy of another ring shows. -/
structure CopyInv (base : Nat) (h : History) (q : Nat) (κ : RingKind) (copy : RingCopy) : Prop where
  header : ∀ head tail, copy.header = some (head, tail) → Window base h q κ head tail
  slot : ∀ j it, copy.slot j = some it →
    ∀ k, (takes q κ h).length ≤ k → k < base → k % maxQuiRingLen = j → (puts q κ h)[k]? = some it

/-- The walk of node `m` over the ring of node `q` has reached slot `j`. -/
def LoopInv (m base : Nat) (h : History) (q : Nat) (κ : RingKind) (j tail : Nat) : Prop :=
  ∃ I T, j = I % maxQuiRingLen ∧ tail = T % maxQuiRingLen ∧ I ≤ T ∧ T < I + maxQuiRingLen ∧ base ≤ T ∧
    ∀ k, (takes q κ h).length ≤ k → k < base → k < I → InvalidatedBy m q κ k h

/-- A flush of node `m` in progress: `base q` entries had been put into the ring of node `q` when it
began. -/
structure CallInv (P : Params) (base : Nat → Nat) (h : History) (copy : Nat → RingCopy) (m : Nat) (κ : RingKind)
    (c : FlushCall) : Prop where
  old : ∀ q, base q ≤ (puts q κ h).length
  done : ∀ i, firstRing κ ≤ i → i < c.i →
    Covered m ((m + i) % P.activeNodes) κ (base ((m + i) % P.activeNodes)) h
  loop : ∀ j tail, c.loop = some (j, tail) →
    LoopInv m (base ((m + c.i) % P.activeNodes)) h ((m + c.i) % P.activeNodes) κ j tail
  copies : ∀ q, q ≠ m → CopyInv (base q) h q κ (copy q)

theorem Window.cons {base q head tail : Nat} {h : History} {κ : RingKind} (window : Window base h q κ head tail)
    (e : Timed) : Window base (e :: h) q κ head tail := by
  obtain ⟨H, T, isHead, isTail, ordered, near, all, taken⟩ := window
  exact ⟨H, T, isHead, isTail, ordered, near, all, Nat.le_trans taken (takes_length_le e)⟩

theorem CopyInv.cons {base q : Nat} {h : History} {κ : RingKind} {copy : RingCopy} (inv : CopyInv base h q κ copy)
    (e : Timed) : CopyInv base (e :: h) q κ copy where
  header := fun head tail found => (inv.header head tail found).cons e
  slot := fun j it found k left below here =>
    getElem?_grow (puts_suffix [e] h)
      (inv.slot j it found k (Nat.le_trans (takes_length_le e) left) below here)

theorem LoopInv.cons {m base q j tail : Nat} {h : History} {κ : RingKind} (inv : LoopInv m base h q κ j tail)
    (e : Timed) : LoopInv m base (e :: h) q κ j tail := by
  obtain ⟨I, T, isIndex, isTail, ordered, near, all, walked⟩ := inv
  exact ⟨I, T, isIndex, isTail, ordered, near, all, fun k left below passed =>
    (walked k (Nat.le_trans (takes_length_le e) left) below passed).cons e⟩

theorem CallInv.cons {P : Params} {base : Nat → Nat} {h : History} {copy : Nat → RingCopy} {m : Nat} {κ : RingKind}
    {c : FlushCall} (inv : CallInv P base h copy m κ c) (e : Timed) : CallInv P base (e :: h) copy m κ c where
  old := fun q => Nat.le_trans (inv.old q) (puts_length_le e)
  done := fun i first before => (inv.done i first before).cons e
  loop := fun j tail found => (inv.loop j tail found).cons e
  copies := fun q other => (inv.copies q other).cons e

/-- A walk starts at the head it read. -/
theorem Window.loop {m base q head tail : Nat} {h : History} {κ : RingKind} (window : Window base h q κ head tail) :
    LoopInv m base h q κ head tail := by
  obtain ⟨H, T, isHead, isTail, ordered, near, all, taken⟩ := window
  refine ⟨H, T, isHead, isTail, ordered, near, all, fun k left _ passed => ?_⟩
  omega

/-- A walk that has met the tail has covered the ring. -/
theorem LoopInv.covered {m base q tail : Nat} {h : History} {κ : RingKind} (inv : LoopInv m base h q κ tail tail) :
    Covered m q κ base h := by
  obtain ⟨I, T, isIndex, isTail, ordered, near, all, walked⟩ := inv
  have met : I = T := Ring.absolute_inj ordered near (isIndex.symm.trans isTail)
  intro k left below
  exact walked k left below (by omega)

/-! ## Reading a ring -/

section Reads
variable {P : Params} {start base m q : Nat} {h : History} {s : Runtime} {κ : RingKind}

/-- The header in memory is a window. -/
theorem QueueInv.window {Q : QscQueue} (inv : QueueInv P start h Q q κ) (old : base ≤ (puts q κ h).length) :
    Window base h q κ Q.ql.head Q.ql.tail :=
  ⟨(takes q κ h).length, (puts q κ h).length, inv.head, inv.tail, inv.length_lt.1, inv.length_lt.2, old, Nat.le_refl _⟩

theorem readHeader_window (queue : QueueInv P start h (s.queue q κ) q κ) (old : base ≤ (puts q κ h).length)
    (copy : q ≠ m → CopyInv base h q κ (s.copy m κ q)) :
    Window base h q κ (readHeader s m κ q).1 (readHeader s m κ q).2 := by
  unfold readHeader
  by_cases own : q = m
  · rw [if_pos own]
    exact queue.window old
  · rw [if_neg own]
    cases cached : (s.copy m κ q).header with
    | none => exact queue.window old
    | some header => exact (copy own).header header.1 header.2 cached

/-- The slot of an entry that is in the ring and was when the walk began. -/
theorem readSlot_entry {k : Nat} (queue : QueueInv P start h (s.queue q κ) q κ) (old : base ≤ (puts q κ h).length)
    (copy : q ≠ m → CopyInv base h q κ (s.copy m κ q)) (left : (takes q κ h).length ≤ k) (below : k < base) :
    (puts q κ h)[k]? = some (readSlot s m κ q (k % maxQuiRingLen)) := by
  have current := queue.slot left (Nat.lt_of_lt_of_le below old)
  unfold readSlot
  by_cases own : q = m
  · rw [if_pos own]
    exact current
  · rw [if_neg own]
    cases cached : (s.copy m κ q).slot (k % maxQuiRingLen) with
    | none => exact current
    | some it => exact (copy own).slot _ it cached k left below rfl

end Reads

/-! ## The steps of a flush -/

section Steps
variable {P : Params} {start : Nat} {base : Nat → Nat} {h : History} {s : Runtime} {m : Nat} {κ : RingKind} {i : Nat}

theorem CallInv.begin (old : ∀ q, base q ≤ (puts q κ h).length) :
    CallInv P base h (fun _ => RingCopy.invalid) m κ ⟨firstRing κ, none⟩ where
  old := old
  done := fun i first before => absurd before (Nat.not_lt.mpr first)
  loop := fun j tail found => by cases found
  copies := fun q other => ⟨fun head tail found => (by cases found), fun j it found => (by cases found)⟩

theorem CallInv.flushRing (inv : CallInv P base h (s.copy m κ) m κ ⟨i, none⟩)
    (queue : ∀ q, QueueInv P start h (s.queue q κ) q κ) :
    CallInv P base h (s.copy m κ) m κ ⟨i, some (readHeader s m κ ((m + i) % P.activeNodes))⟩ where
  old := inv.old
  done := inv.done
  loop := fun j tail found => by
    have window := readHeader_window (queue ((m + i) % P.activeNodes)) (inv.old _) (inv.copies _)
    rw [Option.some.inj found] at window
    exact window.loop
  copies := inv.copies

/-- The entry the walk is at is the one `clflush_range_opt` is called on. -/
theorem CallInv.clflush {j tail t : Nat} (inv : CallInv P base h (s.copy m κ) m κ ⟨i, some (j, tail)⟩)
    (queue : ∀ q, QueueInv P start h (s.queue q κ) q κ) (more : j ≠ tail) :
    CallInv P base (⟨t, .clflush m κ (readSlot s m κ ((m + i) % P.activeNodes) j).mh
        (readSlot s m κ ((m + i) % P.activeNodes) j).sz⟩ :: h)
      (s.copy m κ) m κ ⟨i, some ((j + 1) % maxQuiRingLen, tail)⟩ := by
  refine ⟨(inv.cons _).old, (inv.cons _).done, fun j' tail' found => ?_, (inv.cons _).copies⟩
  obtain ⟨rfl, rfl⟩ := Prod.mk.inj (Option.some.inj found)
  obtain ⟨I, T, isIndex, isTail, ordered, near, all, walked⟩ := inv.loop j tail rfl
  have before : I ≠ T := fun same => more (by rw [isIndex, isTail, same])
  refine ⟨I + 1, T, Ring.absolute isIndex, isTail, by omega, by omega, all, fun k left below passed => ?_⟩
  have left' := Nat.le_trans (takes_length_le _) left
  rcases Nat.lt_or_ge k I with walkedBefore | here
  · exact (walked k left' below walkedBefore).cons _
  · obtain rfl : k = I := by omega
    have entry := readSlot_entry (queue ((m + i) % P.activeNodes)) (inv.old _) (inv.copies _) left' below
    rw [← isIndex] at entry
    exact ⟨[_], h, _, κ, rfl, entry, _, List.mem_singleton_self _, rfl⟩

theorem CallInv.flushNext {copy : Nat → RingCopy} {tail : Nat}
    (inv : CallInv P base h copy m κ ⟨i, some (tail, tail)⟩) :
    CallInv P base h copy m κ ⟨i + 1, none⟩ where
  old := inv.old
  done := fun i' first before => by
    rcases Nat.lt_or_ge i' i with earlier | here
    · exact inv.done i' first earlier
    · obtain rfl : i' = i := by simp only at before; omega
      exact (inv.loop tail tail rfl).covered
  loop := fun j tail found => by cases found
  copies := inv.copies

/-- Refreshing the header of one copy. -/
theorem CallInv.fetchHeader {c : FlushCall} (inv : CallInv P base h (s.copy m κ) m κ c) (q : Nat)
    (queue : QueueInv P start h (s.queue q κ) q κ) :
    CallInv P base h (Function.update (s.copy m κ) q
      { s.copy m κ q with header := some ((s.queue q κ).ql.head, (s.queue q κ).ql.tail) }) m κ c := by
  refine ⟨inv.old, inv.done, inv.loop, fun q' other => ?_⟩
  by_cases here : q' = q
  · subst here
    rw [Function.update_self]
    refine ⟨fun head tail found => ?_, (inv.copies q' other).slot⟩
    obtain ⟨rfl, rfl⟩ := Prod.mk.inj (Option.some.inj found)
    exact queue.window (inv.old q')
  · rw [Function.update_of_ne here]
    exact inv.copies q' other

/-- Refreshing one slot of one copy. -/
theorem CallInv.fetchSlot {c : FlushCall} (inv : CallInv P base h (s.copy m κ) m κ c) (q j : Nat)
    (queue : QueueInv P start h (s.queue q κ) q κ) :
    CallInv P base h (Function.update (s.copy m κ) q
      { s.copy m κ q with slot := Function.update (s.copy m κ q).slot j (some ((s.queue q κ).ql.ring j)) }) m κ c := by
  refine ⟨inv.old, inv.done, inv.loop, fun q' other => ?_⟩
  by_cases here : q' = q
  · subst here
    rw [Function.update_self]
    refine ⟨(inv.copies q' other).header, fun j' it found k left below slot => ?_⟩
    simp only at found
    by_cases same : j' = j
    · subst same
      rw [Function.update_self] at found
      rw [← Option.some.inj found, ← slot]
      exact queue.slot left (Nat.lt_of_lt_of_le below (inv.old q'))
    · rw [Function.update_of_ne same] at found
      exact (inv.copies q' other).slot j' it found k left below slot
  · rw [Function.update_of_ne here]
    exact inv.copies q' other

end Steps

/-! ## Flushes along a run -/

/-- Every flush of the rings `κ` that node `m` has begun is in progress, or has covered all rings it
walks. -/
def FlushInv (P : Params) (h : History) (s : Runtime) (m : Nat) (κ : RingKind) : Prop :=
  ∀ later earlier tb put, h = later ++ ⟨tb, .flushBegin m κ put⟩ :: earlier →
    let base := fun q => (puts q κ (⟨tb, .flushBegin m κ put⟩ :: earlier)).length
    ((¬ ∃ e ∈ later, e.ev = .flushEnd m κ) ∧ ∃ c, s.call m κ = some c ∧ CallInv P base h (s.copy m κ) m κ c) ∨
    ∀ i, firstRing κ ≤ i → i < P.activeNodes →
      Covered m ((m + i) % P.activeNodes) κ (base ((m + i) % P.activeNodes)) h

/-- A step that neither begins nor ends a flush of `m` and keeps the invariant of one in progress. -/
theorem FlushInv.advance {P : Params} {h : History} {s s' : Runtime} {m t : Nat} {κ : RingKind} {ev : Ev}
    (inv : FlushInv P h s m κ) (notBegin : ∀ put, ev ≠ .flushBegin m κ put) (notEnd : ev ≠ .flushEnd m κ)
    (call : ∀ base c, s.call m κ = some c → CallInv P base h (s.copy m κ) m κ c →
      ∃ c', s'.call m κ = some c' ∧ CallInv P base (⟨t, ev⟩ :: h) (s'.copy m κ) m κ c') :
    FlushInv P (⟨t, ev⟩ :: h) s' m κ := by
  intro later earlier tb put split
  cases later with
  | nil =>
    obtain ⟨same, -⟩ := List.cons.inj split
    exact absurd (Timed.mk.inj same).2 (notBegin put)
  | cons e later =>
    obtain ⟨rfl, rest⟩ := List.cons.inj split
    rcases inv later earlier tb put rest with ⟨unfinished, c, active, callInv⟩ | covered
    · left
      refine ⟨?_, call _ c active callInv⟩
      rintro ⟨e, member, isEnd⟩
      rcases List.mem_cons.mp member with same | old
      · subst same; exact notEnd isEnd
      · exact unfinished ⟨e, old, isEnd⟩
    · right
      exact fun i first bound => (covered i first bound).cons _

theorem FlushInv.frame {P : Params} {h : History} {s s' : Runtime} {m t : Nat} {κ : RingKind} {ev : Ev}
    (inv : FlushInv P h s m κ) (notBegin : ∀ put, ev ≠ .flushBegin m κ put) (notEnd : ev ≠ .flushEnd m κ)
    (call : s'.call m κ = s.call m κ) (copy : s'.copy m κ = s.copy m κ) : FlushInv P (⟨t, ev⟩ :: h) s' m κ := by
  refine inv.advance notBegin notEnd fun base c active callInv => ⟨c, call.trans active, ?_⟩
  rw [copy]
  exact callInv.cons _

/-- **One step** keeps the invariant of every node's flushes. -/
theorem FlushInv.step {P : Params} {start t : Nat} {h : History} {s s' : Runtime} {ev : Ev} {clk : Nat → Nat}
    (inv : ∀ m κ, FlushInv P h s m κ) (queue : ∀ q κ, QueueInv P start h (s.queue q κ) q κ)
    (act : Do P clk s ev s') (m : Nat) (κ : RingKind) : FlushInv P (⟨t, ev⟩ :: h) s' m κ := by
  cases act with
  | enter | exit | timeFlush | free | cacheFlush | reclaim =>
    exact (inv m κ).frame (fun put same => by cases same) (fun same => by cases same) rfl rfl
  | @fetchHeader n q κ' =>
    by_cases here : m = n ∧ κ = κ'
    · obtain ⟨rfl, rfl⟩ := here
      refine (inv m κ).advance (fun put same => by cases same) (fun same => by cases same) fun base c active callInv =>
        ⟨c, active, ?_⟩
      simp only [upd_same]
      exact (callInv.fetchHeader q (queue q κ)).cons _
    · exact (inv m κ).frame (fun put same => by cases same) (fun same => by cases same) rfl (upd_ne _ _ here)
  | @fetchSlot n q j κ' =>
    by_cases here : m = n ∧ κ = κ'
    · obtain ⟨rfl, rfl⟩ := here
      refine (inv m κ).advance (fun put same => by cases same) (fun same => by cases same) fun base c active callInv =>
        ⟨c, active, ?_⟩
      simp only [upd_same]
      exact (callInv.fetchSlot q j (queue q κ)).cons _
    · exact (inv m κ).frame (fun put same => by cases same) (fun same => by cases same) rfl (upd_ne _ _ here)
  | @flushBegin n r κ' q idle run =>
    by_cases here : m = n ∧ κ = κ'
    · obtain ⟨rfl, rfl⟩ := here
      intro later earlier tb put split
      cases later with
      | nil =>
        -- the flush that begins now
        rw [List.nil_append] at split
        left
        refine ⟨by simp, ⟨firstRing κ, none⟩, upd_same _ _ _ _, ?_⟩
        simp only [upd_same]
        exact CallInv.begin fun q => Nat.le_of_eq (by rw [split])
      | cons e later =>
        -- an earlier one is over, for none is in progress
        obtain ⟨rfl, rest⟩ := List.cons.inj split
        rcases inv m κ later earlier tb put rest with ⟨_, c, active, _⟩ | covered
        · rw [idle] at active; cases active
        · right
          exact fun i first bound => (covered i first bound).cons _
    · refine (inv m κ).frame (fun put same => ?_) (fun same => by cases same) (upd_ne _ _ here) (upd_ne _ _ here)
      obtain ⟨rfl, rfl, -⟩ := Ev.flushBegin.inj same
      exact here ⟨rfl, rfl⟩
  | @flushRing n i κ' current more =>
    by_cases here : m = n ∧ κ = κ'
    · obtain ⟨rfl, rfl⟩ := here
      refine (inv m κ).advance (fun put same => by cases same) (fun same => by cases same) fun base c active callInv =>
        ⟨_, upd_same _ _ _ _, ?_⟩
      obtain rfl := Option.some.inj (current.symm.trans active)
      exact (callInv.flushRing fun q => queue q κ).cons _
    · exact (inv m κ).frame (fun put same => by cases same) (fun same => by cases same) (upd_ne _ _ here) rfl
  | @clflush n i j tail κ' current more =>
    by_cases here : m = n ∧ κ = κ'
    · obtain ⟨rfl, rfl⟩ := here
      refine (inv m κ).advance (fun put same => by cases same) (fun same => by cases same) fun base c active callInv =>
        ⟨_, upd_same _ _ _ _, ?_⟩
      obtain rfl := Option.some.inj (current.symm.trans active)
      exact callInv.clflush (fun q => queue q κ) more
    · exact (inv m κ).frame (fun put same => by cases same) (fun same => by cases same) (upd_ne _ _ here) rfl
  | @flushNext n i j tail κ' current done =>
    by_cases here : m = n ∧ κ = κ'
    · obtain ⟨rfl, rfl⟩ := here
      subst done
      refine (inv m κ).advance (fun put same => by cases same) (fun same => by cases same) fun base c active callInv =>
        ⟨_, upd_same _ _ _ _, ?_⟩
      obtain rfl := Option.some.inj (current.symm.trans active)
      exact callInv.flushNext.cons _
    · exact (inv m κ).frame (fun put same => by cases same) (fun same => by cases same) (upd_ne _ _ here) rfl
  | @flushEnd n i κ' current done =>
    by_cases here : m = n ∧ κ = κ'
    · obtain ⟨rfl, rfl⟩ := here
      intro later earlier tb put split
      right
      cases later with
      | nil => cases (List.cons.inj split).1
      | cons e later =>
        obtain ⟨rfl, rest⟩ := List.cons.inj split
        intro i' first bound
        rcases inv m κ later earlier tb put rest with ⟨_, c, active, callInv⟩ | covered
        · obtain rfl := Option.some.inj (current.symm.trans active)
          exact (callInv.done i' first (by simp only; omega)).cons _
        · exact (covered i' first bound).cons _
    · refine (inv m κ).frame (fun put same => by cases same) (fun same => ?_) (upd_ne _ _ here) rfl
      obtain ⟨rfl, rfl⟩ := Ev.flushEnd.inj same
      exact here ⟨rfl, rfl⟩

theorem Run.flushInv {P : Params} {start now : Nat} {s₀ s : Runtime} {h : History} {view : Nat → Nat}
    (init : s₀.Init) (run : Run P start s₀ h now view s) (m : Nat) (κ : RingKind) : FlushInv P h s m κ := by
  induction run generalizing m κ with
  | init view =>
    intro later earlier tb put split
    exact absurd split (by simp)
  | step before later node clock act ih => exact FlushInv.step ih (before.queueInv init) act m κ

theorem Run.sorted {P : Params} {start now : Nat} {s₀ s : Runtime} {h : History} {view : Nat → Nat}
    (run : Run P start s₀ h now view s) : h.Pairwise fun a b => b.time < a.time := by
  induction run with
  | init view => exact List.Pairwise.nil
  | step before later node clock act ih =>
    exact List.pairwise_cons.mpr ⟨fun e member => Nat.lt_of_le_of_lt (before.time_le.2 e member) later, ih⟩

/-- A flush that ended has covered the ring of `q`, unless it is the node's own write log. -/
theorem Run.flushed {P : Params} {start now m q tb : Nat} {s₀ s : Runtime} {later earlier : History}
    {view : Nat → Nat} {κ : RingKind} {put : List QuiesItem} {e : Timed} (init : s₀.Init)
    (run : Run P start s₀ (later ++ ⟨tb, .flushBegin m κ put⟩ :: earlier) now view s) (node : m < P.activeNodes)
    (owner : q < P.activeNodes) (walked : κ = .smr ∨ m ≠ q) (member : e ∈ later) (isEnd : e.ev = .flushEnd m κ) :
    Covered m q κ (puts q κ (⟨tb, .flushBegin m κ put⟩ :: earlier)).length
      (later ++ ⟨tb, .flushBegin m κ put⟩ :: earlier) := by
  rcases run.flushInv init m κ later earlier tb put rfl with ⟨unfinished, _⟩ | covered
  · exact absurd ⟨e, member, isEnd⟩ unfinished
  · obtain ⟨i, bound, here⟩ := scan_covers m owner
    have first : firstRing κ ≤ i := by
      rcases walked with rfl | other
      · exact Nat.zero_le _
      · -- the own ring is the one at `i = 0`
        have positive : i ≠ 0 := by
          rintro rfl
          rw [Nat.add_zero, Nat.mod_eq_of_lt node] at here
          exact other here
        cases κ with
        | smr => exact Nat.zero_le _
        | wlog cid => exact Nat.one_le_iff_ne_zero.mpr positive
    have all := covered i first (List.mem_range.mp bound)
    rw [here] at all
    exact all

end BiProject.Smr
