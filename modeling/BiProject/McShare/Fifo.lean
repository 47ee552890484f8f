import BiProject.Lib.Ring
import BiProject.McShare.MsgQueue
import Mathlib.Data.List.Induction

/-!
# The queue is a bounded FIFO

Both indices count entries modulo `MSG_NUM`. A side that knows an old value of the other's index still knows a
bound: the producer never gets more than `MSG_NUM - 1` entries ahead of the head it saw last, and the consumer
never passes the tail it saw last. That is why equal remainders mean full, or empty, and nothing else.
-/

namespace BiProject.McShare
set_option autoImplicit false
open BiProject.Lib.Ring

/-- The producer has found room and has not moved its index yet. -/
def EnqPc.storing : EnqPc → Prop
  | .size | .off | .wbEntry | .tail => True
  | _ => False

/-- The consumer has found an entry and has not moved its index yet. -/
def DeqPc.taking : DeqPc → Prop
  | .flush | .read | .head => True
  | _ => False

/-- What the producer has done to the slot at its index. -/
def Queue.Filled (σ : Queue) : Prop :=
  match σ.prod.pc with
  | .off => (σ.prod.ring σ.prod.tail).size = σ.prod.entry.size
  | .wbEntry => σ.prod.ring σ.prod.tail = σ.prod.entry
  | .tail => σ.prod.ring σ.prod.tail = σ.prod.entry ∧ σ.ring σ.prod.tail = σ.prod.entry
  | _ => True

/-- **The invariant of the queue**. -/
structure QueueOk (σ : Queue) : Prop where
  heads : ∀ i v, σ.heads[i]? = some v → v = i % msgNum
  tails : ∀ i v, σ.tails[i]? = some v → v = i % msgNum
  tail : σ.prod.tail = σ.enqueued.length % msgNum
  head : σ.cons.head = σ.dequeued.length % msgNum
  tailsLength : σ.tails.length + (if σ.prod.dirty then 1 else 0) = σ.enqueued.length + 1
  headsLength : σ.heads.length + (if σ.cons.dirty then 1 else 0) = σ.dequeued.length + 1
  tailDirty : σ.prod.dirty → σ.prod.pc = .wbTail
  headDirty : σ.cons.dirty → σ.cons.pc = .wbHead
  order : σ.dequeued <+: σ.enqueued
  prodSeen : σ.prod.seen < σ.heads.length ∧ σ.enqueued.length + 1 ≤ σ.prod.seen + msgNum
  consSeen : σ.cons.seen < σ.tails.length ∧ σ.dequeued.length ≤ σ.cons.seen
  room : σ.prod.pc.storing → σ.enqueued.length + 2 ≤ σ.prod.seen + msgNum
  more : σ.cons.pc.taking → σ.dequeued.length < σ.cons.seen
  slots : ∀ n e, σ.dequeued.length ≤ n → σ.enqueued[n]? = some e → σ.ring (n % msgNum) = e ∧ σ.prod.ring (n % msgNum) = e
  filled : σ.Filled
  fresh : σ.cons.pc = .read → σ.cons.lines σ.cons.head = none
  taken : σ.cons.pc = .head → σ.enqueued[σ.dequeued.length]? = some σ.cons.entry
  prodBegan : σ.prod.pc = .load ∨ σ.prod.pc = .reload → σ.prod.began = (σ.prod.tail, σ.prod.ring)
  consBegan : σ.cons.pc = .load ∨ σ.cons.pc = .reload → σ.cons.began = (σ.cons.head, σ.cons.lines)

section
variable {σ σ' : Queue}

/-- The heads that were written back are those of entries that were taken, -/
theorem QueueOk.heads_le (ok : QueueOk σ) : σ.heads.length ≤ σ.dequeued.length + 1 := by
  have count := ok.headsLength
  omega

/-- and the tails those of entries that were put in. -/
theorem QueueOk.tails_le (ok : QueueOk σ) : σ.tails.length ≤ σ.enqueued.length + 1 := by
  have count := ok.tailsLength
  omega

/-- No more is taken than was put in. -/
theorem QueueOk.behind (ok : QueueOk σ) : σ.dequeued.length ≤ σ.enqueued.length := ok.order.length_le

/-- The producer is never a whole ring ahead of what it saw of the other index, so equal remainders mean full. -/
theorem QueueOk.delta_eq_iff (ok : QueueOk σ) {j v : Nat} (load : SeenAfter σ.heads σ.prod.seen j v) :
    j < σ.heads.length ∧ v = j % msgNum ∧ (σ.delta = v ↔ σ.enqueued.length + 1 = j + msgNum) := by
  obtain ⟨later, entry⟩ := load
  have inside := (List.getElem?_eq_some_iff.mp entry).1
  have value := ok.heads j v entry
  have most := ok.prodSeen.2
  have least := ok.heads_le
  have behind := ok.behind
  have delta : σ.delta = (σ.enqueued.length + 1) % msgNum := by
    rw [Queue.delta, ok.tail, Nat.mod_add_mod]
  refine ⟨inside, value, ?_⟩
  rw [delta, value]
  constructor
  · intro same
    by_contra differ
    have near : σ.enqueued.length + 1 < j + msgNum := by omega
    have equal := absolute_inj (by omega : j ≤ σ.enqueued.length + 1) near same.symm
    omega
  · intro full
    rw [full, Nat.add_mod_right]

/-- The consumer is never past the other index as it saw it, so equal remainders mean empty. -/
theorem QueueOk.head_eq_iff (ok : QueueOk σ) {j v : Nat} (load : SeenAfter σ.tails σ.cons.seen j v) :
    j < σ.tails.length ∧ v = j % msgNum ∧ (σ.cons.head = v ↔ j = σ.dequeued.length) := by
  obtain ⟨later, entry⟩ := load
  have inside := (List.getElem?_eq_some_iff.mp entry).1
  have value := ok.tails j v entry
  have least := ok.consSeen.2
  have most := ok.prodSeen
  have heads := ok.heads_le
  have tails := ok.tails_le
  refine ⟨inside, value, ?_⟩
  rw [ok.head, value]
  constructor
  · intro same
    exact (absolute_inj (by omega : σ.dequeued.length ≤ j) (by omega) same).symm
  · rintro rfl
    rfl

/-! ## The producer -/

/-- A load of the other index, and the branch it takes. -/
theorem QueueOk.enq_load (ok : QueueOk σ) {j v : Nat} {pc : EnqPc} (load : SeenAfter σ.heads σ.prod.seen j v)
    (next : pc = .size ∧ σ.delta ≠ v ∨ pc = .reload ∧ σ.prod.pc = .load ∨ pc = .idle) (clean : σ.prod.dirty = false) :
    QueueOk (σ.toProd fun p => { p with seen := j, pc := pc }) := by
  obtain ⟨inside, _, full⟩ := ok.delta_eq_iff load
  have most := ok.prodSeen.2
  have later := load.1
  refine { ok with
    tailDirty := fun dirty => Bool.noConfusion (clean.symm.trans dirty), prodSeen := ⟨inside, (by omega : σ.enqueued.length + 1 ≤ j + msgNum)⟩,
      room := fun storing => ?_, filled := ?_
    prodBegan := fun began => ?_ }
  · rcases next with ⟨_, roomy⟩ | ⟨rfl, _⟩ | rfl
    · have notFull : σ.enqueued.length + 1 ≠ j + msgNum := fun equal => roomy (full.mpr equal)
      exact (by omega : σ.enqueued.length + 2 ≤ j + msgNum)
    · cases storing
    · cases storing
  · rcases next with ⟨rfl, _⟩ | ⟨rfl, _⟩ | rfl <;> trivial
  · rcases next with ⟨rfl, _⟩ | ⟨rfl, here⟩ | rfl
    · rcases began with first | second <;> cases ‹_›
    · exact ok.prodBegan (Or.inl here)
    · rcases began with first | second <;> cases ‹_›

/-- The slot the producer stores to holds no entry that is pending. -/
theorem QueueOk.slot_ne (ok : QueueOk σ) (storing : σ.prod.pc.storing) {n : Nat} {e : MsgMeta} (least : σ.dequeued.length ≤ n)
    (entry : σ.enqueued[n]? = some e) : n % msgNum ≠ σ.prod.tail := by
  intro same
  have inside := (List.getElem?_eq_some_iff.mp entry).1
  have room := ok.room storing
  have seen := ok.prodSeen.1
  have heads := ok.heads_le
  rw [ok.tail] at same
  have equal := absolute_inj inside.le (by omega) same
  omega

/-- A store of the producer to its slot. -/
theorem QueueOk.enq_store (ok : QueueOk σ) {slot : MsgMeta} {pc : EnqPc} (storing : σ.prod.pc.storing) (still : pc.storing)
    (clean : σ.prod.dirty = false)
    (filled : (σ.toProd fun p => { p with ring := Function.update p.ring p.tail slot, pc := pc }).Filled) :
    QueueOk (σ.toProd fun p => { p with ring := Function.update p.ring p.tail slot, pc := pc }) := by
  refine { ok with
    tailDirty := fun dirty => ?_, room := fun _ => ok.room storing, slots := fun n e least entry => ?_, filled := filled
    prodBegan := fun began => ?_ }
  · exact Bool.noConfusion (clean.symm.trans dirty)
  · refine ⟨(ok.slots n e least entry).1, ?_⟩
    exact (Function.update_of_ne (ok.slot_ne storing least entry) _ _).trans (ok.slots n e least entry).2
  · rcases began with first | second
    · rw [show pc = .load from first] at still
      cases still
    · rw [show pc = .reload from second] at still
      cases still

/-- The producer has a tail to write back only when it has just stored one. -/
theorem QueueOk.clean (ok : QueueOk σ) (elsewhere : σ.prod.pc ≠ .wbTail) : σ.prod.dirty = false :=
  Bool.eq_false_iff.mpr fun dirty => elsewhere (ok.tailDirty dirty)

/-- The entry is written back. -/
theorem QueueOk.enq_wbEntry (ok : QueueOk σ) (here : σ.prod.pc = .wbEntry) :
    QueueOk { σ.toProd fun p => { p with pc := .tail } with
      ring := Function.update σ.ring σ.prod.tail (σ.prod.ring σ.prod.tail) } := by
  have storing : σ.prod.pc.storing := by rw [here]; trivial
  have clean := ok.clean (by rw [here]; simp)
  have filled := ok.filled
  simp only [Queue.Filled, here] at filled
  refine { ok with
    tailDirty := fun dirty => Bool.noConfusion (clean.symm.trans dirty), room := fun _ => ok.room storing
    slots := fun n e least entry => ?_, filled := ⟨filled, ?_⟩, prodBegan := fun began => ?_ }
  · refine ⟨?_, (ok.slots n e least entry).2⟩
    exact (Function.update_of_ne (ok.slot_ne storing least entry) _ _).trans (ok.slots n e least entry).1
  · exact (Function.update_self _ _ _).trans filled
  · rcases began with first | second <;> cases ‹_›

/-- The index moves: the entry counts. -/
theorem QueueOk.enq_tail (ok : QueueOk σ) (here : σ.prod.pc = .tail) :
    QueueOk { σ.toProd fun p => { p with tail := σ.delta, dirty := true, pc := .wbTail } with
      enqueued := σ.enqueued ++ [σ.prod.entry] } := by
  have room := ok.room (by rw [here]; trivial)
  have clean := ok.clean (by rw [here]; simp)
  have count := ok.tailsLength
  have filled := ok.filled
  simp only [Queue.Filled, here] at filled
  rw [clean] at count
  refine { ok with
    tail := ?_, tailsLength := ?_, tailDirty := fun _ => rfl, order := ok.order.trans (List.prefix_append _ _)
    prodSeen := ⟨ok.prodSeen.1, ?_⟩, room := fun storing => False.elim storing, slots := fun n e least entry => ?_
    filled := trivial, taken := fun read => ?_, prodBegan := fun began => ?_ }
  · simp only [List.length_append, List.length_singleton, Queue.toProd]
    rw [Queue.delta, ok.tail, Nat.mod_add_mod]
  · simp only [List.length_append, List.length_singleton, Queue.toProd, if_true] at count ⊢
    simpa using count
  · simp only [List.length_append, List.length_singleton]
    exact room
  · rcases Nat.lt_or_ge n σ.enqueued.length with old | new
    · rw [List.getElem?_append_left old] at entry
      exact ok.slots n e least entry
    · have inside := (List.getElem?_eq_some_iff.mp entry).1
      simp only [List.length_append, List.length_singleton] at inside
      obtain rfl : n = σ.enqueued.length := by omega
      obtain rfl : σ.prod.entry = e := by simpa using entry
      rw [← ok.tail]
      exact ⟨filled.2, filled.1⟩
  · have taken := ok.taken read
    exact (List.getElem?_append_left (List.getElem?_eq_some_iff.mp taken).1).trans taken
  · rcases began with first | second <;> cases ‹_›

/-- A write-back makes one more tail seen, if there is one. -/
theorem Producer.flushed_length (p : Producer) (tails : List Nat) :
    (p.flushed tails).length = tails.length + if p.dirty then 1 else 0 := by
  unfold Producer.flushed
  split_ifs
  · exact List.length_append
  · rfl

/-- The index is written back. -/
theorem QueueOk.flush_tail (ok : QueueOk σ) {pc : EnqPc} (next : pc = .idle ∨ pc = σ.prod.pc) :
    QueueOk { σ.toProd fun p => { p with dirty := false, pc := pc } with tails := σ.prod.flushed σ.tails } := by
  have count := ok.tailsLength
  have length := σ.prod.flushed_length σ.tails
  have grows : σ.tails.length ≤ (σ.prod.flushed σ.tails).length := by omega
  refine { ok with
    tails := fun i v entry => ?_, tailsLength := length.trans count, tailDirty := fun dirty => Bool.noConfusion dirty
    consSeen := ⟨ok.consSeen.1.trans_le grows, ok.consSeen.2⟩, room := fun storing => ?_, filled := ?_, prodBegan := fun began => ?_ }
  · unfold Producer.flushed at entry
    split_ifs at entry with dirty
    · rcases Nat.lt_or_ge i σ.tails.length with old | new
      · rw [List.getElem?_append_left old] at entry
        exact ok.tails i v entry
      · have inside := (List.getElem?_eq_some_iff.mp entry).1
        simp only [List.length_append, List.length_singleton] at inside
        obtain rfl : i = σ.tails.length := by omega
        obtain rfl : σ.prod.tail = v := by simpa using entry
        rw [ok.tail]
        rw [if_pos dirty] at count
        congr 1
        omega
    · exact ok.tails i v entry
  · rcases next with rfl | rfl
    · cases storing
    · exact ok.room storing
  · rcases next with rfl | rfl
    · trivial
    · exact ok.filled
  · rcases next with rfl | rfl
    · rcases began with first | second <;> cases ‹_›
    · exact ok.prodBegan began

/-- **Every step of `msg_enqueue`** keeps the invariant. -/
theorem QueueOk.enq (ok : QueueOk σ) {fails : Bool} (step : EnqStep σ σ' fails) : QueueOk σ' := by
  cases step with
  | call entry idle =>
    have clean := ok.clean (by rw [idle]; simp)
    exact { ok with
      tailDirty := fun dirty => Bool.noConfusion (clean.symm.trans dirty), room := fun storing => False.elim storing, filled := trivial
      prodBegan := fun _ => rfl }
  | loadFull here load => exact ok.enq_load load (Or.inr (Or.inl ⟨rfl, here⟩)) (ok.clean (by rw [here]; simp))
  | loadRoom here load room => exact ok.enq_load load (Or.inl ⟨rfl, room⟩) (ok.clean (by rw [here]; simp))
  | reloadFull here load =>
    exact ok.enq_load ⟨Nat.le_sub_one_of_lt ok.prodSeen.1, by rw [← List.getLast?_eq_getElem?]; exact load⟩ (Or.inr (Or.inr rfl))
      (ok.clean (by rw [here]; simp))
  | reloadRoom here load room =>
    exact ok.enq_load ⟨Nat.le_sub_one_of_lt ok.prodSeen.1, by rw [← List.getLast?_eq_getElem?]; exact load⟩ (Or.inl ⟨rfl, room⟩)
      (ok.clean (by rw [here]; simp))
  | size here =>
    refine ok.enq_store (by rw [here]; trivial) trivial (ok.clean (by rw [here]; simp)) ?_
    simp only [Queue.Filled, Queue.toProd, Function.update_self]
  | off here =>
    have filled := ok.filled
    simp only [Queue.Filled, here] at filled
    refine ok.enq_store (by rw [here]; trivial) trivial (ok.clean (by rw [here]; simp)) ?_
    simp only [Queue.Filled, Queue.toProd, Function.update_self, filled]
  | wbEntry here => exact ok.enq_wbEntry here
  | tail here => exact ok.enq_tail here
  | wbTail here => exact ok.flush_tail (Or.inl rfl)

/-! ## The consumer -/

/-- So it is with the consumer and the head. -/
theorem QueueOk.cleanHead (ok : QueueOk σ) (elsewhere : σ.cons.pc ≠ .wbHead) : σ.cons.dirty = false :=
  Bool.eq_false_iff.mpr fun dirty => elsewhere (ok.headDirty dirty)

/-- A load of the other index, and the branch it takes. -/
theorem QueueOk.deq_load (ok : QueueOk σ) {j v : Nat} {pc : DeqPc} (load : SeenAfter σ.tails σ.cons.seen j v)
    (next : pc = .flush ∧ σ.cons.head ≠ v ∨ pc = .reload ∧ σ.cons.pc = .load ∨ pc = .idle) (clean : σ.cons.dirty = false) :
    QueueOk (σ.toCons fun c => { c with seen := j, pc := pc }) := by
  obtain ⟨inside, _, empty⟩ := ok.head_eq_iff load
  have least := ok.consSeen.2
  have later := load.1
  have notRead : pc ≠ .read ∧ pc ≠ .head := by
    rcases next with ⟨rfl, _⟩ | ⟨rfl, _⟩ | rfl <;> simp
  refine { ok with
    headDirty := fun dirty => Bool.noConfusion (clean.symm.trans dirty), consSeen := ⟨inside, least.trans later⟩
    more := fun taking => ?_, fresh := fun read => absurd read notRead.1, taken := fun read => absurd read notRead.2
    consBegan := fun began => ?_ }
  · rcases next with ⟨_, some⟩ | ⟨rfl, _⟩ | rfl
    · have differ : j ≠ σ.dequeued.length := fun equal => some (empty.mpr equal)
      exact (by omega : σ.dequeued.length < j)
    · cases taking
    · cases taking
  · rcases next with ⟨rfl, _⟩ | ⟨rfl, here⟩ | rfl
    · rcases began with first | second <;> cases ‹_›
    · exact ok.consBegan (Or.inl here)
    · rcases began with first | second <;> cases ‹_›

/-- The entry the consumer has found. -/
theorem QueueOk.next_entry (ok : QueueOk σ) (taking : σ.cons.pc.taking) :
    ∃ e, σ.enqueued[σ.dequeued.length]? = some e ∧ σ.ring σ.cons.head = e := by
  have more := ok.more taking
  have seen := ok.consSeen.1
  have tails := ok.tails_le
  have inside : σ.dequeued.length < σ.enqueued.length := by omega
  refine ⟨_, List.getElem?_eq_getElem inside, ?_⟩
  rw [ok.head]
  exact (ok.slots _ _ le_rfl (List.getElem?_eq_getElem inside)).1

/-- The index moves: the entry is dequeued. -/
theorem QueueOk.deq_head (ok : QueueOk σ) (here : σ.cons.pc = .head) :
    QueueOk { σ.toCons fun c => { c with head := (c.head + 1) % msgNum, dirty := true, pc := .wbHead } with
      dequeued := σ.dequeued ++ [σ.cons.entry] } := by
  have more := ok.more (by rw [here]; trivial)
  have clean := ok.cleanHead (by rw [here]; simp)
  have count := ok.headsLength
  have taken := ok.taken here
  rw [clean] at count
  refine { ok with
    head := ?_, headsLength := ?_, headDirty := fun _ => rfl, order := ?_, consSeen := ⟨ok.consSeen.1, ?_⟩
    more := fun taking => False.elim taking, slots := fun n e least entry => ?_, fresh := fun read => (nomatch read)
    taken := fun read => (nomatch read), consBegan := fun began => ?_ }
  · simp only [List.length_append, List.length_singleton, Queue.toCons]
    rw [ok.head, Nat.mod_add_mod]
  · simp only [List.length_append, List.length_singleton, Queue.toCons, if_true] at count ⊢
    simpa using count
  · obtain ⟨rest, split⟩ := ok.order
    rw [← split, List.getElem?_append_right le_rfl, Nat.sub_self] at taken
    cases rest with
    | nil => cases taken
    | cons e rest =>
      obtain rfl : e = σ.cons.entry := by simpa using taken
      exact ⟨rest, by rw [List.append_assoc]; exact split⟩
  · simp only [List.length_append, List.length_singleton]
    exact more
  · simp only [List.length_append, List.length_singleton] at least
    exact ok.slots n e (by omega) entry
  · rcases began with first | second <;> cases ‹_›

/-- A write-back makes one more head seen, if there is one. -/
theorem Consumer.flushed_length (c : Consumer) (heads : List Nat) :
    (c.flushed heads).length = heads.length + if c.dirty then 1 else 0 := by
  unfold Consumer.flushed
  split_ifs
  · exact List.length_append
  · rfl

/-- The consumer's line goes to memory. -/
theorem QueueOk.flush_head (ok : QueueOk σ) {pc : DeqPc} (next : pc = .idle ∨ pc = σ.cons.pc) :
    QueueOk { σ.toCons fun c => { c with dirty := false, pc := pc } with heads := σ.cons.flushed σ.heads } := by
  have count := ok.headsLength
  have length := σ.cons.flushed_length σ.heads
  have grows : σ.heads.length ≤ (σ.cons.flushed σ.heads).length := by omega
  refine { ok with
    heads := fun i v entry => ?_, headsLength := length.trans count, headDirty := fun dirty => Bool.noConfusion dirty
    prodSeen := ⟨ok.prodSeen.1.trans_le grows, ok.prodSeen.2⟩, more := fun taking => ?_, fresh := fun read => ?_
    taken := fun read => ?_, consBegan := fun began => ?_ }
  · unfold Consumer.flushed at entry
    split_ifs at entry with dirty
    · rcases Nat.lt_or_ge i σ.heads.length with old | new
      · rw [List.getElem?_append_left old] at entry
        exact ok.heads i v entry
      · have inside := (List.getElem?_eq_some_iff.mp entry).1
        simp only [List.length_append, List.length_singleton] at inside
        obtain rfl : i = σ.heads.length := by omega
        obtain rfl : σ.cons.head = v := by simpa using entry
        rw [ok.head]
        rw [if_pos dirty] at count
        congr 1
        omega
    · exact ok.heads i v entry
  · rcases next with rfl | rfl
    · cases taking
    · exact ok.more taking
  · rcases next with rfl | rfl
    · cases read
    · exact ok.fresh read
  · rcases next with rfl | rfl
    · cases read
    · exact ok.taken read
  · rcases next with rfl | rfl
    · rcases began with first | second <;> cases ‹_›
    · exact ok.consBegan began

/-- **Every step of `msg_dequeue`** keeps the invariant. -/
theorem QueueOk.deq (ok : QueueOk σ) {fails : Bool} (step : DeqStep σ σ' fails) : QueueOk σ' := by
  cases step with
  | call idle =>
    have clean := ok.cleanHead (by rw [idle]; simp)
    exact { ok with
      headDirty := fun dirty => Bool.noConfusion (clean.symm.trans dirty), more := fun taking => False.elim taking
      fresh := fun read => (nomatch read), taken := fun read => (nomatch read), consBegan := fun _ => rfl }
  | loadEmpty here load => exact ok.deq_load load (Or.inr (Or.inl ⟨rfl, here⟩)) (ok.cleanHead (by rw [here]; simp))
  | loadSome here load more => exact ok.deq_load load (Or.inl ⟨rfl, more⟩) (ok.cleanHead (by rw [here]; simp))
  | reloadEmpty here load =>
    exact ok.deq_load ⟨Nat.le_sub_one_of_lt ok.consSeen.1, by rw [← List.getLast?_eq_getElem?]; exact load⟩ (Or.inr (Or.inr rfl))
      (ok.cleanHead (by rw [here]; simp))
  | reloadSome here load more =>
    exact ok.deq_load ⟨Nat.le_sub_one_of_lt ok.consSeen.1, by rw [← List.getLast?_eq_getElem?]; exact load⟩ (Or.inl ⟨rfl, more⟩)
      (ok.cleanHead (by rw [here]; simp))
  | flush here =>
    have clean := ok.cleanHead (by rw [here]; simp)
    have taking := ok.more (by rw [here]; trivial)
    exact { ok with
      headDirty := fun dirty => Bool.noConfusion (clean.symm.trans dirty), more := fun _ => taking
      fresh := fun _ => Function.update_self _ _ _, taken := fun read => (nomatch read)
      consBegan := fun began => by rcases began with first | second <;> cases ‹_› }
  | read here =>
    have clean := ok.cleanHead (by rw [here]; simp)
    have taking : σ.cons.pc.taking := by rw [here]; trivial
    obtain ⟨e, entry, slot⟩ := ok.next_entry taking
    refine { ok with
      headDirty := fun dirty => Bool.noConfusion (clean.symm.trans dirty), more := fun _ => ok.more taking
      fresh := fun read => (nomatch read), taken := fun _ => ?_
      consBegan := fun began => by rcases began with first | second <;> cases ‹_› }
    simp only [Queue.toCons, ok.fresh here, Option.getD_none, slot]
    exact entry
  | head here => exact ok.deq_head here
  | wbHead here => exact ok.flush_head (Or.inl rfl)

/-! ## Runs -/

/-- **The hardware writes a line back.** -/
theorem QueueOk.writeBack (ok : QueueOk σ) (step : WriteBack σ σ') : QueueOk σ' := by
  cases step with
  | entry i =>
    refine { ok with slots := fun n e least entry => ?_, filled := ?_ }
    · obtain ⟨inMemory, inCache⟩ := ok.slots n e least entry
      refine ⟨?_, inCache⟩
      by_cases here : n % msgNum = i
      · rw [here] at inCache ⊢
        exact (Function.update_self _ _ _).trans inCache
      · exact (Function.update_of_ne here _ _).trans inMemory
    · have filled := ok.filled
      unfold Queue.Filled at filled ⊢
      cases pc : σ.prod.pc <;> simp only [pc] at filled ⊢
      case off => exact filled
      case wbEntry => exact filled
      case tail =>
        refine ⟨filled.1, ?_⟩
        by_cases here : σ.prod.tail = i
        · rw [← here, Function.update_self]
          exact filled.1
        · rw [Function.update_of_ne here]
          exact filled.2
  | tail => exact ok.flush_tail (Or.inr rfl)
  | head => exact ok.flush_head (Or.inr rfl)

/-- An index that has had one value. -/
theorem first_value (i v : Nat) (entry : [0][i]? = some v) : v = i % msgNum := by
  cases i with
  | zero => exact (Option.some.inj entry).symm
  | succ i => cases entry

/-- So it is in every run. -/
theorem QueueRun.ok (run : QueueRun σ) : QueueOk σ := by
  induction run with
  | init ring entry =>
    refine ⟨?_, ?_, rfl, rfl, rfl, rfl, fun dirty => (nomatch dirty), fun dirty => (nomatch dirty), List.nil_prefix, ⟨Nat.one_pos, ?_⟩,
      ⟨Nat.one_pos, le_rfl⟩, fun storing => False.elim storing, fun taking => False.elim taking, fun n e _ entry => (nomatch entry), trivial,
      fun read => (nomatch read), fun read => (nomatch read), fun _ => rfl, fun _ => rfl⟩
    · exact first_value
    · exact first_value
    · exact Nat.le_of_ble_eq_true rfl
  | step _ next ih =>
    cases next with
    | enq step => exact ih.enq step
    | deq step => exact ih.deq step
    | hardware step => exact ih.writeBack step

/-- What the producer, or the consumer, leaves as it was when its call began. -/
structure Unchanged (σ σ' : Queue) : Prop where
  ring : σ'.ring = σ.ring
  heads : σ'.heads = σ.heads
  tails : σ'.tails = σ.tails
  enqueued : σ'.enqueued = σ.enqueued
  dequeued : σ'.dequeued = σ.dequeued
  prod : σ'.prod.tail = σ.prod.tail ∧ σ'.prod.ring = σ.prod.ring
  cons : σ'.cons.head = σ.cons.head ∧ σ'.cons.lines = σ.cons.lines

/-- One slot stays empty. -/
theorem QueueOk.pending_le (ok : QueueOk σ) : σ.pending ≤ msgNum - 1 := by
  have seen := ok.prodSeen
  have tails := ok.tails_le
  unfold Queue.pending
  omega

/-- An enqueue fails only on a queue that is full, and changes nothing, -/
theorem QueueOk.enq_fails (ok : QueueOk σ) (step : EnqStep σ σ' true) :
    σ.pending = msgNum - 1 ∧ Unchanged σ σ' ∧ σ'.prod.began = (σ'.prod.tail, σ'.prod.ring) := by
  cases step with
  | reloadFull here load =>
    have clean := ok.clean (by rw [here]; simp)
    have count := ok.tailsLength
    rw [clean] at count
    obtain ⟨_, _, full⟩ := ok.delta_eq_iff ⟨Nat.le_sub_one_of_lt ok.prodSeen.1, by rw [← List.getLast?_eq_getElem?]; exact load⟩
    have ahead := full.mp rfl
    have some := ok.prodSeen.1
    refine ⟨?_, ⟨rfl, rfl, rfl, rfl, rfl, ⟨rfl, rfl⟩, rfl, rfl⟩, ok.prodBegan (Or.inr here)⟩
    simp only [Bool.false_eq_true, if_false] at count
    unfold Queue.pending
    omega

/-- and a dequeue only on one that is empty. -/
theorem QueueOk.deq_fails (ok : QueueOk σ) (step : DeqStep σ σ' true) :
    σ.pending = 0 ∧ Unchanged σ σ' ∧ σ'.cons.began = (σ'.cons.head, σ'.cons.lines) := by
  cases step with
  | reloadEmpty here load =>
    have clean := ok.cleanHead (by rw [here]; simp)
    have count := ok.headsLength
    rw [clean] at count
    obtain ⟨_, _, empty⟩ := ok.head_eq_iff ⟨Nat.le_sub_one_of_lt ok.consSeen.1, by rw [← List.getLast?_eq_getElem?]; exact load⟩
    have none := empty.mp rfl
    have some := ok.consSeen.1
    refine ⟨?_, ⟨rfl, rfl, rfl, rfl, rfl, ⟨rfl, rfl⟩, rfl, rfl⟩, ok.consBegan (Or.inr here)⟩
    simp only [Bool.false_eq_true, if_false] at count
    unfold Queue.pending
    omega

/-- **The queue is a bounded FIFO**: what is dequeued is what was enqueued, in order, and every entry that is not
dequeued yet is still in its slot. At most `MSG_NUM - 1` entries are pending; a call fails only where the queue
is full, or empty, when it reloads the index, and then it changes nothing. -/
theorem queue_fifo (run : QueueRun σ) :
    σ.dequeued <+: σ.enqueued ∧
    (∀ n e, σ.dequeued.length ≤ n → σ.enqueued[n]? = some e → σ.ring (n % msgNum) = e) ∧
    σ.pending ≤ msgNum - 1 ∧
    (∀ σ', EnqStep σ σ' true → σ.pending = msgNum - 1 ∧ Unchanged σ σ' ∧ σ'.prod.began = (σ'.prod.tail, σ'.prod.ring)) ∧
    (∀ σ', DeqStep σ σ' true → σ.pending = 0 ∧ Unchanged σ σ' ∧ σ'.cons.began = (σ'.cons.head, σ'.cons.lines)) := by
  have ok := run.ok
  exact ⟨ok.order, fun n e least entry => (ok.slots n e least entry).1, ok.pending_le, fun σ' => ok.enq_fails, fun σ' => ok.deq_fails⟩

/-- The rest of a call of `msg_enqueue` that has found room. -/
theorem QueueRun.stores (run : QueueRun σ) (here : σ.prod.pc = .size) :
    ∃ σ', QueueRun σ' ∧ σ'.prod.pc = .idle ∧ σ'.prod.dirty = false ∧ σ'.prod.seen = σ.prod.seen ∧ σ'.heads = σ.heads ∧
      σ'.enqueued = σ.enqueued ++ [σ.prod.entry] ∧ σ'.dequeued = σ.dequeued ∧ σ'.cons = σ.cons := by
  have written := ((run.step (.enq (.size here))).step (.enq (.off rfl))).step (.enq (.wbEntry rfl))
  have sent := (written.step (.enq (.tail rfl))).step (.enq (.wbTail rfl))
  exact ⟨_, sent, rfl, rfl, rfl, rfl, rfl, rfl, rfl⟩

/-- The rest of a call of `msg_dequeue` that has found an entry. -/
theorem QueueRun.takes (run : QueueRun σ) (here : σ.cons.pc = .flush) :
    ∃ σ', QueueRun σ' ∧ σ'.prod = σ.prod ∧ σ'.heads = σ.heads ++ [(σ.cons.head + 1) % msgNum] ∧ σ'.enqueued = σ.enqueued ∧
      σ'.dequeued.length = σ.dequeued.length + 1 := by
  have read := (run.step (.deq (.flush here))).step (.deq (.read rfl))
  have taken := (read.step (.deq (.head rfl))).step (.deq (.wbHead rfl))
  exact ⟨_, taken, rfl, rfl, rfl, List.length_append⟩

/-- Calls of `msg_enqueue` fill an empty queue whose consumer does nothing. -/
theorem exists_filled (ring : Nat → MsgMeta) (entry : MsgMeta) (es : List MsgMeta) (fits : es.length ≤ msgNum - 1) :
    ∃ σ, QueueRun σ ∧ σ.prod.pc = .idle ∧ σ.prod.dirty = false ∧ σ.prod.seen = 0 ∧ σ.heads = [0] ∧ σ.enqueued = es ∧ σ.dequeued = [] ∧
      σ.cons = ⟨0, fun _ => none, false, 0, .idle, entry, (0, fun _ => none)⟩ := by
  induction es using List.reverseRecOn with
  | nil => exact ⟨_, .init ring entry, rfl, rfl, rfl, rfl, rfl, rfl, rfl⟩
  | append_singleton es e ih =>
    rw [List.length_append, List.length_singleton] at fits
    obtain ⟨σ, run, idle, clean, seen, heads, enqueued, dequeued, cons⟩ := ih (by omega)
    have load : SeenAfter σ.heads σ.prod.seen 0 0 := ⟨by rw [seen], by rw [heads]; rfl⟩
    have room : σ.delta ≠ 0 := by
      have positive : 0 < msgNum := by decide
      have small : es.length + 1 < msgNum := by omega
      rw [Queue.delta, run.ok.tail, enqueued, Nat.mod_add_mod, Nat.mod_eq_of_lt small]
      omega
    have loaded := (run.step (.enq (.call e idle))).step (.enq (@EnqStep.loadRoom _ 0 0 rfl load room))
    obtain ⟨σ', run', idle', clean', seen', heads', enqueued', dequeued', cons'⟩ := loaded.stores rfl
    refine ⟨σ', run', idle', clean', seen', heads'.trans heads, ?_, dequeued'.trans dequeued, cons'.trans cons⟩
    rw [enqueued']
    simp only [Queue.toProd, enqueued]

/-- The eighth call finds the queue full. After one of `msg_dequeue`, which has loaded an old `q->tail`, the next loads the old
`q->head`, and finds room when it loads it again. -/
theorem queue_fifo_full : ∃ σ σ' τ, QueueRun σ ∧ EnqStep σ σ' true ∧ σ.pending = msgNum - 1 ∧ Unchanged σ σ' ∧
    QueueRun τ ∧ τ.enqueued.length = 8 ∧ τ.dequeued.length = 1 ∧ τ.dequeued <+: τ.enqueued := by
  obtain ⟨σ, run, idle, clean, seen, heads, enqueued, dequeued, cons⟩ := exists_filled (fun _ => ⟨0, 0⟩) ⟨0, 0⟩
    [⟨64, 0⟩, ⟨64, 1⟩, ⟨64, 2⟩, ⟨64, 3⟩, ⟨64, 4⟩, ⟨64, 5⟩, ⟨64, 6⟩] (by decide)
  have delta : σ.delta = 0 := by
    rw [Queue.delta, run.ok.tail, enqueued]
    rfl
  have refused : σ.heads.getLast? = some σ.delta := by
    rw [heads, delta]
    rfl
  -- the call that fails
  have full := (run.step (.enq (.call ⟨64, 7⟩ idle))).step
    (.enq (@EnqStep.loadFull _ 0 rfl ⟨Nat.le_of_eq seen, by simp only [Queue.toProd, heads]; exact congrArg some delta.symm⟩))
  have fails := full.step (.enq (.reloadFull rfl refused))
  obtain ⟨_, _, _, failure, _⟩ := queue_fifo full
  obtain ⟨pending, unchanged, _⟩ := failure _ (.reloadFull rfl refused)
  -- one entry is taken, with the fourth value of the index
  obtain ⟨v, stale, more⟩ : ∃ v, σ.tails[3]? = some v ∧ σ.cons.head ≠ v := by
    have count := run.ok.tailsLength
    simp only [clean, enqueued, Bool.false_eq_true, if_false, List.length_cons, List.length_nil] at count
    have inside : 3 < σ.tails.length := by omega
    refine ⟨_, List.getElem?_eq_getElem inside, ?_⟩
    rw [run.ok.tails 3 _ (List.getElem?_eq_getElem inside), cons]
    decide
  have asked := fails.step (.deq (.call (by simp only [Queue.toProd, cons])))
  have found := asked.step (.deq (@DeqStep.loadSome _ 3 v rfl ⟨by simp [Queue.toCons, Queue.toProd, cons], stale⟩ more))
  obtain ⟨τ, taken, prod, heads', enqueued', dequeued'⟩ := found.takes rfl
  have prod : τ.prod.pc = .idle ∧ τ.prod.seen = 0 ∧ τ.delta = 0 := by
    rw [Queue.delta, prod]
    refine ⟨rfl, ?_, delta⟩
    simp [Queue.toCons, Queue.toProd, heads]
  have heads' : τ.heads = [0, 1] := by
    rw [heads']
    simp [Queue.toCons, Queue.toProd, heads, cons, msgNum]
  -- the call that loads the old index first
  have load : SeenAfter τ.heads τ.prod.seen 0 τ.delta := ⟨Nat.le_of_eq prod.2.1, by rw [heads', prod.2.2]; rfl⟩
  have last : τ.heads.getLast? = some 1 := by
    rw [heads']
    rfl
  have room : τ.delta ≠ 1 := by
    rw [prod.2.2]
    exact Nat.zero_ne_one
  have late := (taken.step (.enq (.call ⟨64, 7⟩ prod.1))).step (.enq (@EnqStep.loadFull _ 0 rfl load))
  obtain ⟨τ', sent, _, _, _, _, enqueued'', dequeued'', _⟩ := (late.step (.enq (.reloadRoom rfl last room))).stores rfl
  refine ⟨_, _, τ', full, .reloadFull rfl refused, pending, unchanged, sent, ?_, ?_, (queue_fifo sent).1⟩
  · rw [enqueued'']
    simp [Queue.toProd, enqueued', Queue.toCons, enqueued]
  · rw [dequeued'']
    simp [Queue.toProd, dequeued', Queue.toCons, dequeued]

end

end BiProject.McShare
