import BiProject.BiMc.Retire
import BiProject.Lib.LittleEndian
import Mathlib.Data.Int.ModEq
import Mathlib.Data.Nat.ModEq
import Mathlib.Data.Set.Card

/-!
# The memory that `bi_mc` accounts for

`used` and `quiesce` of `struct mc_status` against what they stand for: the objects that are handed out, the slabs
that are backed, the objects on the quiescence ring. Every function keeps the difference between the two, but for
`parsec_mem_alloc`: it counts an object before it has it, and does not take it back when it gets none.
-/

namespace BiProject.BiMc
set_option autoImplicit false
open BiProject.Lib BiProject.Lib.Chains BiProject.Lib.Ring

/-! ## The books -/

/-- How many objects are handed out. -/
noncomputable def Node.handedOut (σ : Node) : Nat := {a | σ.out a = true}.ncard

/-- The books with the items `q` on the ring: `used` is ahead by `d`, `quiesce` by `e`. -/
structure BooksAt (X : Ext) (σ : Node) (q : List Addr) (d e : Nat) : Prop where
  ring : Holds quisNum σ.ring σ.head σ.tail q
  nodup : q.Nodup
  queued : ∀ a ∈ q, σ.out a = true
  finite : {a | σ.out a = true}.Finite
  usedWidth : σ.used < u64
  quiesceWidth : σ.quiesce < u64
  used : σ.used + X.fragmentation * σ.free ≡ X.objTotSz * σ.handedOut + X.fragmentation * σ.alloc + d [MOD u64]
  quiesce : σ.quiesce ≡ X.objTotSz * q.length + e [MOD u64]

/-- The books between the functions. -/
def Books (X : Ext) (σ : Node) (d : Nat) : Prop := ∃ q, BooksAt X σ q d 0

/-- Subtracting wraps, and adding wraps back. -/
theorem wrap_sub (x y : Nat) : (x + (u64 - y % u64)) % u64 + y ≡ x [MOD u64] := by
  unfold Nat.ModEq u64
  omega

section
variable {X : Ext} {hash : Key → Nat} {σ σ' : Node} {chain : Nat → List Addr} {q P : List Addr} {a : Addr} {d e : Nat}

/-- The table and the marks are not in the books. -/
theorem BooksAt.table (books : BooksAt X σ q d e) (table : Table) (tscFree : Addr → Nat) :
    BooksAt X { σ with table := table, tscFree := tscFree } q d e :=
  ⟨books.ring, books.nodup, books.queued, books.finite, books.usedWidth, books.quiesceWidth, books.used, books.quiesce⟩

/-- The table is not in the books. -/
theorem Books.table (books : Books X σ d) (table : Table) (tscFree : Addr → Nat) :
    Books X { σ with table := table, tscFree := tscFree } d := by
  obtain ⟨q, at_q⟩ := books
  exact ⟨q, at_q.table table tscFree⟩

/-- An object less, -/
theorem out_update_false (out : Addr → Bool) (a : Addr) :
    {x | Function.update out a false x = true} = {x | out x = true} \ {a} := by
  ext x
  by_cases here : x = a
  · simp [here]
  · simp [here]

/-- and one more. -/
theorem out_update_true (out : Addr → Bool) (a : Addr) :
    {x | Function.update out a true x = true} = insert a {x | out x = true} := by
  ext x
  by_cases here : x = a
  · simp [here]
  · simp [here]

/-! ## Reclaiming -/

/-- The oldest item goes back, and neither counter has changed for it yet. -/
theorem BooksAt.dequeue (books : BooksAt X σ (a :: q) d e) :
    qscRingPeek σ = some a ∧ BooksAt X (psSlabFreeItem X (qscRingDequeue σ).2 a) q (d + X.objTotSz) (e + X.objTotSz) := by
  have first : σ.ring σ.head = some a := books.ring.peek
  refine ⟨first, ?_⟩
  have dequeued : (qscRingDequeue σ).2 =
      { σ with ring := Function.update σ.ring σ.head none, head := next quisNum σ.head } := by
    rw [qscRingDequeue, first]
    rfl
  have distinct := List.nodup_cons.mp books.nodup
  have fewer : {x | Function.update σ.out a false x = true}.ncard + 1 = σ.handedOut := by
    rw [out_update_false]
    exact Set.ncard_sdiff_singleton_add_one (books.queued a List.mem_cons_self) books.finite
  have finite : {x | Function.update σ.out a false x = true}.Finite := by
    rw [out_update_false]
    exact books.finite.subset Set.sdiff_subset
  have queued : ∀ x ∈ q, Function.update σ.out a false x = true := by
    intro x member
    have differ : x ≠ a := by
      rintro rfl
      exact distinct.1 member
    rw [Function.update_of_ne differ]
    exact books.queued x (List.mem_cons_of_mem a member)
  have quiesce : σ.quiesce ≡ X.objTotSz * q.length + (e + X.objTotSz) [MOD u64] := by
    have before := books.quiesce
    rw [List.length_cons, Nat.mul_succ] at before
    rwa [show X.objTotSz * q.length + (e + X.objTotSz) = X.objTotSz * q.length + X.objTotSz + e by omega]
  have used : σ.used + X.fragmentation * σ.free ≡
      X.objTotSz * {x | Function.update σ.out a false x = true}.ncard + X.fragmentation * σ.alloc + (d + X.objTotSz) [MOD u64] := by
    have before := books.used
    rw [← fewer, Nat.mul_succ] at before
    generalize X.objTotSz * {x | Function.update σ.out a false x = true}.ncard = bytes at before ⊢
    rwa [show bytes + X.fragmentation * σ.alloc + (d + X.objTotSz) = bytes + X.objTotSz + X.fragmentation * σ.alloc + d by omega]
  rw [dequeued, psSlabFreeItem]
  by_cases back : X.givesBack (Function.update σ.out a false) a = true
  · simp only [back, if_true]
    refine ⟨books.ring.pop, distinct.2, queued, finite, Nat.mod_lt _ (by decide), books.quiesceWidth, ?_, quiesce⟩
    have counted := (wrap_sub σ.used X.fragmentation).add_right (X.fragmentation * σ.free)
    refine Nat.ModEq.trans ?_ (counted.trans used)
    change (σ.used + (u64 - X.fragmentation % u64)) % u64 + X.fragmentation * (σ.free + 1) ≡ _ [MOD u64]
    rw [Nat.mul_succ, Nat.add_comm (X.fragmentation * σ.free), Nat.add_assoc]
  · simp only [back]
    exact ⟨books.ring.pop, distinct.2, queued, finite, books.usedWidth, books.quiesceWidth, used, quiesce⟩

/-- The loop of a reclaim counts what it returns. -/
theorem BooksAt.reclaimLoop (books : BooksAt X σ q d e) {qsc fuel i i' : Nat} (run : memSmrReclaimLoop X qsc fuel i σ = some (i', σ')) :
    ∃ q' k, BooksAt X σ' q' (d + k * X.objTotSz) (e + k * X.objTotSz) ∧ i' = i + k * X.objTotSz ∧
      ∀ x, σ.out x = true → x ∉ q → σ'.out x = true ∧ x ∉ q' := by
  induction fuel generalizing σ q i d e with
  | zero => cases run
  | succ fuel ih =>
    have stops : (i, σ) = (i', σ') → ∃ q' k, BooksAt X σ' q' (d + k * X.objTotSz) (e + k * X.objTotSz) ∧ i' = i + k * X.objTotSz ∧
        ∀ x, σ.out x = true → x ∉ q → σ'.out x = true ∧ x ∉ q' := by
      rintro ⟨⟩
      exact ⟨q, 0, by simpa using books, by simp, fun x out idle => ⟨out, idle⟩⟩
    rw [memSmrReclaimLoop] at run
    cases q with
    | nil =>
      rw [show qscRingPeek σ = none from books.ring.peek] at run
      exact stops (Option.some.inj run)
    | cons a q =>
      obtain ⟨peek, rest⟩ := books.dequeue
      rw [peek] at run
      simp only at run
      split_ifs at run with early core
      · exact stops (Option.some.inj run)
      · obtain ⟨q', k, books', bytes, kept⟩ := ih rest run
        refine ⟨q', k + 1, ?_, ?_, fun x out idle => ?_⟩
        · rw [show d + (k + 1) * X.objTotSz = d + X.objTotSz + k * X.objTotSz by rw [Nat.succ_mul]; omega,
            show e + (k + 1) * X.objTotSz = e + X.objTotSz + k * X.objTotSz by rw [Nat.succ_mul]; omega]
          exact books'
        · rw [bytes, Nat.succ_mul]
          omega
        · rw [List.mem_cons, not_or] at idle
          refine kept x ?_ idle.2
          obtain ⟨used, free, map, after⟩ := psSlabFreeItem_eq X (qscRingDequeue σ).2 a
          rw [after, qscRingDequeue, show σ.ring σ.head = some a from peek]
          simpa [idle.1] using out

/-- **`mem_smr_reclaim`** takes what it returns off both counters. -/
theorem BooksAt.reclaim (books : BooksAt X σ q d e) {now i : Nat} (run : memSmrReclaim X σ now = some (i, σ')) :
    ∃ q', BooksAt X σ' q' d e ∧ ∀ x, σ.out x = true → x ∉ q → σ'.out x = true ∧ x ∉ q' := by
  unfold memSmrReclaim at run
  split at run
  · obtain ⟨rfl, rfl⟩ := Prod.mk.inj (Option.some.inj run)
    exact ⟨q, books, fun x out idle => ⟨out, idle⟩⟩
  · simp only [Option.bind_eq_bind, Option.bind_eq_some_iff, Option.pure_def, Option.some.injEq, Prod.mk.injEq, Prod.exists] at run
    obtain ⟨j, σ₁, loop, rfl, rfl⟩ := run
    obtain ⟨q', k, after, bytes, kept⟩ := books.reclaimLoop loop
    rw [Nat.zero_add] at bytes
    rw [← bytes] at after
    refine ⟨q', ⟨after.ring, after.nodup, after.queued, after.finite, Nat.mod_lt _ (by decide), Nat.mod_lt _ (by decide), ?_, ?_⟩, kept⟩
    · have counted := (wrap_sub σ₁.used j).add_right (X.fragmentation * σ₁.free)
      have total := counted.trans after.used
      rw [Nat.add_right_comm, ← Nat.add_assoc _ d j] at total
      exact Nat.ModEq.add_right_cancel' j total
    · have total := (wrap_sub σ₁.quiesce j).trans after.quiesce
      rw [← Nat.add_assoc _ e j] at total
      exact Nat.ModEq.add_right_cancel' j total

/-- So does a reclaim that a call comes to. -/
theorem BooksAt.reclaimIf (books : BooksAt X σ q d e) {cond : Bool} {now : Nat} (run : BiMc.reclaimIf X cond σ now = some σ') :
    ∃ q', BooksAt X σ' q' d e ∧ ∀ x, σ.out x = true → x ∉ q → σ'.out x = true ∧ x ∉ q' := by
  unfold BiMc.reclaimIf at run
  split_ifs at run
  · obtain ⟨⟨i, σ₁⟩, called, rfl⟩ := Option.map_eq_some_iff.mp run
    exact books.reclaim called
  · obtain rfl := Option.some.inj run
    exact ⟨q, books, fun x out idle => ⟨out, idle⟩⟩

/-! ## Freeing -/

/-- **`parsec_mem_free`** counts the object that it puts on the ring. -/
theorem Books.memFree (books : Books X σ d) (out : σ.out a = true) (idle : ¬ σ.Queued a) {clock : Clock}
    (run : parsecMemFree X σ a clock = some σ') : Books X σ' d := by
  obtain ⟨q, at_q⟩ := books
  rw [queued_iff at_q.ring] at idle
  simp only [parsecMemFree, qscRingEnqueue, Option.bind_eq_bind, Option.bind_eq_some_iff, Option.guard_eq_some', Option.pure_def,
    Option.some.injEq] at run
  obtain ⟨_, ⟨σ₁, reclaim, _, room, rfl⟩, rfl⟩ := run
  obtain ⟨q₁, after, kept⟩ := (at_q.table σ.table (Function.update σ.tscFree a clock.tsc)).reclaimIf reclaim
  obtain ⟨out₁, idle₁⟩ := kept a out idle
  refine ⟨q₁ ++ [a], after.ring.push a room, ?_, fun x member => ?_, after.finite, after.usedWidth, Nat.mod_lt _ (by decide), after.used, ?_⟩
  · rw [List.nodup_append']
    exact ⟨after.nodup, by simp, by simpa using idle₁⟩
  · rcases List.mem_append.mp member with old | new
    · exact after.queued x old
    · rw [List.mem_singleton.mp new]
      exact out₁
  · refine (Nat.mod_modEq _ _).trans ?_
    have more := after.quiesce.add_right X.objTotSz
    rw [List.length_append, List.length_singleton, Nat.mul_succ]
    exact more

/-- An item that is freed is counted until it is reclaimed. -/
theorem Books.removeFree (books : Books X σ d) (out : σ.out a = true) (idle : ¬ σ.Queued a) {clock : Clock}
    (run : doItemRemoveFree X σ a clock = some σ') : Books X σ' d := by
  simp only [doItemRemoveFree, itemFree, Option.bind_eq_bind, Option.bind_eq_some_iff] at run
  obtain ⟨_, _, freed⟩ := run
  refine Books.memFree ?_ ?_ ?_ freed
  · exact books.table _ σ.tscFree
  · exact out
  · exact idle

/-- **`do_item_unlink`** of an item that is not on the ring yet. -/
theorem Books.unlink (books : Books X σ d) (out : σ.out a = true) (idle : ¬ σ.Queued a) {fuel hv : Nat} {clock : Clock}
    (run : doItemUnlink X fuel σ a hv clock = some σ') : Books X σ' d := by
  simp only [doItemUnlink, Option.bind_eq_bind, Option.bind_eq_some_iff] at run
  obtain ⟨_, _, ss, _, free⟩ := run
  refine Books.removeFree ?_ ?_ ?_ free
  · exact books.table _ σ.tscFree
  · exact out
  · exact idle

/-! ## Eviction -/

/-- Evicting a slab's items frees each of them. -/
theorem Books.evictLoop (books : Books X σ d) (inv : Inv hash σ chain q P) (idle : σ.Idle P) {fuel i : Nat} {clock : Nat → Clock}
    {rest : List Addr} (settled : ∀ x ∈ rest, σ.Settled x) (run : slabEvictLoop X fuel clock i rest σ = some σ') : Books X σ' d := by
  induction rest generalizing σ chain q i with
  | nil =>
    obtain rfl := Option.some.inj run
    exact books
  | cons a rest ih =>
    rw [slabEvictLoop] at run
    split_ifs at run with free node
    · exact ih books inv idle (fun x member => settled x (List.mem_cons_of_mem a member)) run
    · simp only [Option.bind_eq_bind, Option.bind_eq_some_iff] at run
      obtain ⟨σ₁, unlink, run⟩ := run
      have linked : (σ.table.items a).linked = true := by
        simp only [doItemUnlink, Option.bind_eq_bind, Option.bind_eq_some_iff, Option.guard_eq_some'] at unlink
        obtain ⟨_, linked, _⟩ := unlink
        exact linked
      have out : σ.out a = true := (settled a List.mem_cons_self).resolve_right (by rw [linked]; simp)
      have notHeld : a ∉ P := by
        intro held
        rw [idle a held] at linked
        cases linked
      obtain ⟨b, member⟩ := inv.in_chain out linked notHeld
      have free : ¬ σ.Queued a := fun queued => inv.not_queued member (inv.queued_iff.mp queued)
      obtain ⟨⟨chain₁, q₁, inv₁⟩, idle₁, keeps⟩ := inv.unlink idle (settled a List.mem_cons_self) unlink
      exact ih (books.unlink out free unlink) inv₁ idle₁ (fun x later => keeps x (settled x (List.mem_cons_of_mem a later))) run

/-- **`slab_evict`**. -/
theorem Books.evict (books : Books X σ d) (inv : Inv hash σ chain q P) (idle : σ.Idle P) {fuel s : Nat} {clock : Nat → Clock}
    (run : slabEvict X fuel clock σ s = some σ') : Books X σ' d := by
  simp only [slabEvict, Option.bind_eq_bind, Option.bind_eq_some_iff, Option.guard_eq_some'] at run
  obtain ⟨_, _, _, full, run⟩ := run
  refine books.evictLoop inv idle (fun x member => Or.inl ?_) run
  have none := List.countP_eq_zero.mp full x member
  simpa using none

/-- So it is slab by slab, -/
theorem Books.memEvictLoop (books : Books X σ d) (inv : Inv hash σ chain q P) (idle : σ.Idle P) {fuel npages i i' : Nat}
    {clock : Nat → Nat → Clock} {slabs : List Nat} (run : mcMemEvictLoop X fuel clock npages i slabs σ = some (i', σ')) :
    Books X σ' d := by
  induction slabs generalizing σ chain q i with
  | nil =>
    obtain ⟨_, rfl⟩ := Prod.mk.inj (Option.some.inj run)
    exact books
  | cons s rest ih =>
    rw [mcMemEvictLoop] at run
    split_ifs at run with more
    · simp only [Option.bind_eq_bind, Option.bind_eq_some_iff] at run
      obtain ⟨σ₁, evict, run⟩ := run
      obtain ⟨chain₁, q₁, inv₁, idle₁⟩ := inv.evict idle evict
      exact ih (books.evict inv idle evict) inv₁ idle₁ run
    · obtain ⟨_, rfl⟩ := Prod.mk.inj (Option.some.inj run)
      exact books

/-- and in an eviction. -/
theorem Books.memEvict (books : Books X σ d) (inv : Inv hash σ chain q P) (idle : σ.Idle P) {fuel npages : Nat}
    {clock : Nat → Nat → Clock} {el fl : List Nat} (run : mcMemEvict X fuel clock npages el fl σ = some σ') : Books X σ' d := by
  simp only [mcMemEvict, Option.bind_eq_bind, Option.bind_eq_some_iff, Option.pure_def, Option.some.injEq, Prod.exists] at run
  obtain ⟨i, σ₁, first, j, σ₂, second, rfl⟩ := run
  obtain ⟨chain₁, q₁, inv₁, idle₁⟩ := inv.memEvictLoop idle first
  exact (books.memEvictLoop inv idle first).memEvictLoop inv₁ idle₁ second

/-- A slab whose pages are taken is counted. -/
theorem Books.takePages (books : Books X σ d) {s : Option Nat} (run : (s, σ') = BiMc.takePages X σ) : Books X σ' d := by
  rcases takePages_cases run with ⟨_, rfl⟩ | ⟨off, _, _, rfl⟩
  · exact books
  · obtain ⟨p, at_p⟩ := books
    refine ⟨p, at_p.ring, at_p.nodup, at_p.queued, at_p.finite, Nat.mod_lt _ (by decide), at_p.quiesceWidth, ?_, at_p.quiesce⟩
    change (σ.used + X.fragmentation) % u64 + X.fragmentation * σ.free ≡
      X.objTotSz * σ.handedOut + X.fragmentation * (σ.alloc + 1) + d [MOD u64]
    have more := at_p.used.add_right X.fragmentation
    refine ((Nat.mod_modEq _ _).add_right _).trans ?_
    rw [Nat.add_right_comm, Nat.mul_succ]
    refine more.trans ?_
    rw [show X.objTotSz * σ.handedOut + (X.fragmentation * σ.alloc + X.fragmentation) + d =
      X.objTotSz * σ.handedOut + X.fragmentation * σ.alloc + d + X.fragmentation by omega]

/-- **`mc_alloc_pages`** counts the slab it returns. -/
theorem Books.allocPages (books : Books X σ d) (inv : Inv hash σ chain q P) (idle : σ.Idle P) {fuel now : Nat}
    {clock : Nat → Nat → Clock} {el fl : List Nat} {s : Option Nat} (run : mcAllocPages X fuel now clock el fl σ = some (s, σ')) :
    Books X σ' d := by
  obtain ⟨σ₁, reclaim, rest⟩ := mcAllocPages_cases run
  obtain ⟨q₁, inv₁, table, _⟩ := inv.reclaimIf reclaim
  have idle₁ : σ₁.Idle P := fun x held => by rw [table]; exact idle x held
  have books₁ : Books X σ₁ d := by
    obtain ⟨p, at_p⟩ := books
    obtain ⟨p', after, _⟩ := at_p.reclaimIf reclaim
    exact ⟨p', after⟩
  rcases rest with ⟨_, rfl⟩ | ⟨σ₂, rfl | evict, take⟩
  · exact books₁
  · exact books₁.takePages take
  · exact (books₁.memEvict inv₁ idle₁ evict).takePages take

/-! ## Setting a key -/

/-- What an allocation leaves counted that it did not get. -/
def Ext.leftOver (X : Ext) : Option Addr → Nat
  | some _ => 0
  | none => X.objTotSz

/-- **The allocator**: an object that is handed out has been paid for, and NULL leaves what was paid. -/
theorem Books.slabAlloc {r : Option Addr} (run : SlabAlloc X σ r σ') (inv : Inv hash σ chain q P) (idle : σ.Idle P)
    (books : Books X σ (d + X.objTotSz)) : Books X σ' (d + X.leftOver r) := by
  induction run generalizing chain q with
  | pages refill _ ih =>
    obtain ⟨chain₁, q₁, inv₁, idle₁⟩ := inv.allocPages idle refill
    exact ih inv₁ idle₁ (books.allocPages inv idle refill)
  | none => exact books
  | @object σ a it free =>
    obtain ⟨p, at_p⟩ := books
    have more : {x | Function.update σ.out a true x = true}.ncard = σ.handedOut + 1 := by
      rw [out_update_true]
      exact Set.ncard_insert_of_notMem (by simp [free]) at_p.finite
    have finite : {x | Function.update σ.out a true x = true}.Finite := by
      rw [out_update_true]
      exact at_p.finite.insert a
    refine ⟨p, at_p.ring, at_p.nodup, fun x member => ?_, finite, at_p.usedWidth, at_p.quiesceWidth, ?_, at_p.quiesce⟩
    · have out := at_p.queued x member
      have differ : x ≠ a := by
        rintro rfl
        rw [free] at out
        cases out
      exact (Function.update_of_ne differ _ _).trans out
    · change σ.used + X.fragmentation * σ.free ≡ X.objTotSz * {x | Function.update σ.out a true x = true}.ncard +
        X.fragmentation * σ.alloc + d [MOD u64]
      have before := at_p.used
      rw [more, Nat.mul_succ]
      rwa [show X.objTotSz * σ.handedOut + X.objTotSz + X.fragmentation * σ.alloc + d =
        X.objTotSz * σ.handedOut + X.fragmentation * σ.alloc + (d + X.objTotSz) by omega]

/-- **`parsec_mem_alloc`** counts an object in any case. -/
theorem Books.memAlloc {r : Option Addr} {size : Nat} (books : Books X σ d) (inv : Inv hash σ chain q P) (idle : σ.Idle P)
    (run : ParsecMemAlloc X σ size r σ') : Books X σ' (d + X.leftOver r) := by
  refine Books.slabAlloc run.2 (inv.withStatus _ _ _ _ _ _) idle ?_
  obtain ⟨p, at_p⟩ := books
  refine ⟨p, at_p.ring, at_p.nodup, at_p.queued, at_p.finite, Nat.mod_lt _ (by decide), at_p.quiesceWidth, ?_, at_p.quiesce⟩
  change (σ.used + X.objTotSz) % u64 + X.fragmentation * σ.free ≡ X.objTotSz * σ.handedOut + X.fragmentation * σ.alloc +
    (d + X.objTotSz) [MOD u64]
  refine ((Nat.mod_modEq _ _).add_right _).trans ?_
  rw [Nat.add_right_comm, ← Nat.add_assoc]
  exact at_p.used.add_right X.objTotSz

/-- Filling an item counts nothing. -/
theorem Books.fill (books : Books X σ d) {key : List UInt8} {nkey flags nbytes : Nat}
    (run : fillItem σ a key nkey flags nbytes = some σ') : Books X σ' d := by
  simp only [fillItem, Option.bind_eq_bind, Option.bind_eq_some_iff, Option.pure_def, Option.some.injEq] at run
  obtain ⟨_, _, rfl⟩ := run
  exact books.table _ σ.tscFree

/-- **`mc_set_key_rcv`** with its item: the one it replaces goes to the ring. -/
theorem Books.setItem (books : Books X σ d) (inv : Inv hash σ chain q (a :: P)) {key data : List UInt8} {nkey nbytes hv fuel : Nat}
    {clock : Clock} (run : mcSetItem X fuel σ a key nkey data nbytes hv clock = some σ') : Books X σ' d := by
  simp only [mcSetItem, Option.bind_eq_bind, Option.bind_eq_some_iff] at run
  obtain ⟨found, find, run⟩ := run
  have notQueued : a ∉ q := fun queued => (List.nodup_append'.mp inv.nodup).2.2 queued List.mem_cons_self
  have inv₁ := inv.modify (fun i => { i with data := data.take nbytes, hv := hv }) (inv.held a List.mem_cons_self).2
    fun queued => absurd queued notQueued
  have books₁ : Books X (σ.modify a fun i => { i with data := data.take nbytes, hv := hv }) d := books.table _ σ.tscFree
  generalize (σ.modify a fun i => { i with data := data.take nbytes, hv := hv }) = τ at find run inv₁ books₁
  have result := assocFindLoop_some (c := .head (bucketOf hv)) (inv₁.tidy (bucketOf hv)).path find
  cases found with
  | none =>
    simp only [doItemLink, Option.bind_eq_bind, Option.bind_eq_some_iff, Option.pure_def, Option.some.injEq] at run
    obtain ⟨_, _, ss, _, rfl⟩ := run
    exact books₁.table _ τ.tscFree
  | some old =>
    have inside : old ∈ chain (bucketOf hv) := List.mem_of_find?_eq_some result.symm
    simp only [doItemReplace, Option.bind_eq_bind, Option.bind_eq_some_iff] at run
    obtain ⟨_, _, _, _, ss, _, free⟩ := run
    refine Books.removeFree ?_ ?_ ?_ free
    · exact books₁.table _ τ.tscFree
    · exact (inv₁.chained _ old inside).1
    · exact fun queued => inv₁.not_queued inside (inv₁.queued_iff.mp queued)

end

/-! ## Runs -/

section
variable (X : Ext)

/-- `ps_slab_alloc_item`, which returns NULL where `mc_alloc_pages` does, and only there. -/
inductive PsSlabAlloc : Node → Option Addr → Node → Prop where
  | pages {σ σ₁ σ₂ : Node} {r : Option Addr} {s fuel now : Nat} {clock : Nat → Nat → Clock} {el fl : List Nat}
      (refill : mcAllocPages X fuel now clock el fl σ = some (some s, σ₁)) (rest : PsSlabAlloc σ₁ r σ₂) : PsSlabAlloc σ r σ₂
  | refused {σ σ₁ : Node} {fuel now : Nat} {clock : Nat → Nat → Clock} {el fl : List Nat}
      (refill : mcAllocPages X fuel now clock el fl σ = some (none, σ₁)) : PsSlabAlloc σ none σ₁
  | object {σ : Node} {a : Addr} (it : Item) (free : σ.out a = false) :
      PsSlabAlloc σ (some a) { σ with
        table := σ.table.setItem a it, out := Function.update σ.out a true, tscFree := Function.update σ.tscFree a slabInUse }

/-- `parsec_mem_alloc` with this allocator. -/
def PsMemAlloc (σ : Node) (size : Nat) (r : Option Addr) (σ' : Node) : Prop :=
  size = mcSlabObjSz ∧ PsSlabAlloc X { σ with used := (σ.used + X.objTotSz) % u64 } r σ'

/-- `do_item_alloc`, and how often `ps_slab_alloc_item` has returned NULL in it. -/
inductive AllocNulls (σ : Node) (key : List UInt8) (nkey flags nbytes : Nat) : Nat → Option Addr → Node → Prop where
  | first {a : Addr} {σ₁ σ' : Node}
      (alloc : PsMemAlloc X σ (sizeofItem + (nkey + 1) + (suffixText flags nbytes).length + nbytes) (some a) σ₁)
      (fill : fillItem σ₁ a key nkey flags nbytes = some σ') : AllocNulls σ key nkey flags nbytes 0 (some a) σ'
  | second {a : Addr} {σ₁ σ₂ σ' : Node}
      (alloc : PsMemAlloc X σ (sizeofItem + (nkey + 1) + (suffixText flags nbytes).length + nbytes) none σ₁)
      (again : PsMemAlloc X σ₁ (sizeofItem + (nkey + 1) + (suffixText flags nbytes).length + nbytes) (some a) σ₂)
      (fill : fillItem σ₂ a key nkey flags nbytes = some σ') : AllocNulls σ key nkey flags nbytes 1 (some a) σ'
  | fails {σ₁ σ₂ : Node}
      (alloc : PsMemAlloc X σ (sizeofItem + (nkey + 1) + (suffixText flags nbytes).length + nbytes) none σ₁)
      (again : PsMemAlloc X σ₁ (sizeofItem + (nkey + 1) + (suffixText flags nbytes).length + nbytes) none σ₂) :
      AllocNulls σ key nkey flags nbytes 2 none σ₂

/-- `mc_set_key_rcv`, counted in the same way. -/
inductive SetNulls (σ : Node) (key : List UInt8) (nkey : Nat) (data : List UInt8) (nbytes hv : Nat) : Nat → Option Addr → Node → Prop where
  | ok {it : Addr} {σ₁ σ' : Node} {fuel n : Nat} {clock : Clock} (alloc : AllocNulls X σ key nkey 0 (nbytes + 2) n (some it) σ₁)
      (set : mcSetItem X fuel σ₁ it key nkey data nbytes hv clock = some σ') : SetNulls σ key nkey data nbytes hv n (some it) σ'
  | error {σ' : Node} {n : Nat} (alloc : AllocNulls X σ key nkey 0 (nbytes + 2) n none σ') : SetNulls σ key nkey data nbytes hv n none σ'

/-- Runs from what `mc_init` leaves: the pages of the node, from `first` on, are in its bitmap. It counts how often
`ps_slab_alloc_item` has returned NULL. An item that `do_item_alloc` has filled, as a call of its own, is its caller's until
`parsec_mem_free` gets it: it is handed out, in no bucket and not on the ring. -/
inductive CountedRun (hash : Key → Nat) : Nat → Node → Prop where
  | init (items : Addr → Item) (tscFree : Addr → Nat) (first : Nat) :
      CountedRun hash 0 ⟨⟨fun _ => none, items⟩, tscFree, fun _ => none, 0, 0, fun _ => false, 0, 0, 0, 0, initMemSz X.numNode,
        fun p => first ≤ p ∧ p < first + initMemSz X.numNode / pageSize, true⟩
  | set {n k : Nat} {σ σ' : Node} {key data : List UInt8} {r : Option Addr} (before : CountedRun hash n σ)
      (keyLen : key.length = keyLength) (dataLen : data.length = vLength) (mine : mcHv2node X.numNode (hash (keyLength, key)) = X.curr)
      (run : SetNulls X σ key keyLength data vLength (hash (keyLength, key)) k r σ') : CountedRun hash (n + k) σ'
  | evict {n s fuel : Nat} {clock : Nat → Clock} {σ σ' : Node} (before : CountedRun hash n σ)
      (run : slabEvict X fuel clock σ s = some σ') : CountedRun hash n σ'
  | alloc {n k nkey flags nbytes : Nat} {σ σ' : Node} {key : List UInt8} {r : Option Addr} (before : CountedRun hash n σ)
      (run : AllocNulls X σ key nkey flags nbytes k r σ') : CountedRun hash (n + k) σ'
  | free {n : Nat} {a : Addr} {clock : Clock} {σ σ' : Node} (before : CountedRun hash n σ) (out : σ.out a = true)
      (apart : ∀ b, ¬ σ.table.InBucket b a) (idle : ¬ σ.Queued a) (run : parsecMemFree X σ a clock = some σ') : CountedRun hash n σ'
  | reclaim {n now i : Nat} {σ σ' : Node} (before : CountedRun hash n σ) (run : memSmrReclaim X σ now = some (i, σ')) :
      CountedRun hash n σ'
  -- `mc_disconnect` with `MC_LOADING`
  | loaded {n : Nat} {σ : Node} (before : CountedRun hash n σ) : CountedRun hash n { σ with loading := false }

end

section
variable {X : Ext} {hash : Key → Nat} {σ σ' : Node} {chain : Nat → List Addr} {q P : List Addr} {n d : Nat}

/-- These are the same calls, with their first part told apart: -/
theorem PsSlabAlloc.slabAlloc {r : Option Addr} (run : PsSlabAlloc X σ r σ') : SlabAlloc X σ r σ' := by
  induction run with
  | pages refill _ ih => exact .pages refill ih
  | refused refill => exact .pages refill .none
  | object it free => exact .object it free

/-- of the allocator, -/
theorem PsMemAlloc.memAlloc {r : Option Addr} {size : Nat} (run : PsMemAlloc X σ size r σ') : ParsecMemAlloc X σ size r σ' :=
  ⟨run.1, run.2.slabAlloc⟩

/-- of `do_item_alloc` -/
theorem AllocNulls.itemAlloc {key : List UInt8} {nkey flags nbytes k : Nat} {r : Option Addr}
    (run : AllocNulls X σ key nkey flags nbytes k r σ') : DoItemAlloc X σ key nkey flags nbytes r σ' := by
  cases run with
  | first alloc fill => exact .first alloc.memAlloc fill
  | second alloc again fill => exact .second alloc.memAlloc again.memAlloc fill
  | fails alloc again => exact .fails alloc.memAlloc again.memAlloc

/-- and of a set. -/
theorem SetNulls.setKey {key data : List UInt8} {nkey nbytes hv k : Nat} {r : Option Addr}
    (run : SetNulls X σ key nkey data nbytes hv k r σ') : McSetKeyRcv X σ key nkey data nbytes hv r σ' := by
  cases run with
  | ok alloc set => exact .ok alloc.itemAlloc set
  | error alloc => exact .error alloc.itemAlloc

/-- Each NULL leaves an object counted. -/
theorem Books.allocNulls (books : Books X σ d) (inv : Inv hash σ chain q P) (idle : σ.Idle P) {key : List UInt8} {nkey flags nbytes k : Nat}
    {r : Option Addr} (run : AllocNulls X σ key nkey flags nbytes k r σ') : Books X σ' (d + k * X.objTotSz) := by
  cases run with
  | first alloc fill =>
    rw [Nat.zero_mul]
    exact (books.memAlloc inv idle alloc.memAlloc).fill fill
  | second alloc again fill =>
    obtain ⟨chain₁, q₁, inv₁, idle₁⟩ := inv.memAlloc idle alloc.memAlloc
    rw [Nat.one_mul]
    exact ((books.memAlloc inv idle alloc.memAlloc).memAlloc inv₁ idle₁ again.memAlloc).fill fill
  | fails alloc again =>
    obtain ⟨chain₁, q₁, inv₁, idle₁⟩ := inv.memAlloc idle alloc.memAlloc
    rw [Nat.two_mul, ← Nat.add_assoc]
    exact (books.memAlloc inv idle alloc.memAlloc).memAlloc inv₁ idle₁ again.memAlloc

/-- **A set** counts once more for each allocation that returned NULL. -/
theorem Books.setNulls (books : Books X σ d) (inv : Inv hash σ chain q P) (idle : σ.Idle P) {key data : List UInt8} {nkey nbytes hv k : Nat}
    {r : Option Addr} (run : SetNulls X σ key nkey data nbytes hv k r σ') : Books X σ' (d + k * X.objTotSz) := by
  cases run with
  | ok alloc set =>
    obtain ⟨chain₁, q₁, inv₁, _⟩ := inv.itemAlloc idle alloc.itemAlloc
    exact (books.allocNulls inv idle alloc).setItem inv₁ set
  | error alloc => exact books.allocNulls inv idle alloc

/-- The items in hand in another order. -/
theorem Inv.perm {P' : List Addr} (inv : Inv hash σ chain q P) (same : P.Perm P') : Inv hash σ chain q P' :=
  { inv with
    nodup := ((same.append_left q).nodup_iff).mp inv.nodup
    held := fun a held => inv.held a (same.mem_iff.mpr held)
    all := fun a out => (inv.all a out).imp_right (same.append_left q).mem_iff.mp }

/-- **The books of a run** are ahead by an object for each NULL. -/
theorem CountedRun.books (run : CountedRun X hash n σ) :
    (∃ chain q P, Inv hash σ chain q P ∧ σ.Idle P) ∧ Books X σ (n * X.objTotSz) := by
  induction run with
  | init items tscFree first =>
    have inv : Inv hash _ (fun _ => []) [] [] := Inv.init items tscFree 0 (initMemSz X.numNode)
      (fun p => first ≤ p ∧ p < first + initMemSz X.numNode / pageSize) true
    have positive : 0 < u64 := by decide
    refine ⟨⟨_, _, [], inv, by simp [Node.Idle]⟩, [], inv.ring, List.nodup_nil, by simp, by simp, positive, positive, ?_, ?_⟩
    · simp [Node.handedOut, Nat.ModEq]
    · simp [Nat.ModEq]
  | @set n k σ σ' key data r before keyLen dataLen mine run ih =>
    obtain ⟨⟨chain, q, P, inv, idle⟩, books⟩ := ih
    rw [Nat.add_mul]
    refine ⟨?_, books.setNulls inv idle run⟩
    rw [show (keyLength, key) = (keyLength, key.take keyLength) by rw [key_take keyLen]] at run
    obtain ⟨chain', q', inv', idle', _⟩ := inv.setKey idle run.setKey
    exact ⟨chain', q', P, inv', idle'⟩
  | evict before run ih =>
    obtain ⟨⟨chain, q, P, inv, idle⟩, books⟩ := ih
    obtain ⟨chain', q', inv', idle'⟩ := inv.evict idle run
    exact ⟨⟨chain', q', P, inv', idle'⟩, books.evict inv idle run⟩
  | @alloc n k nkey flags nbytes σ σ' key r before run ih =>
    obtain ⟨⟨chain, q, P, inv, idle⟩, books⟩ := ih
    obtain ⟨chain', q', inv', idle', _⟩ := inv.itemAlloc idle run.itemAlloc
    rw [Nat.add_mul]
    exact ⟨⟨chain', q', _, inv', idle'⟩, books.allocNulls inv idle run⟩
  | @free n a clock σ σ' before out apart idle run ih =>
    obtain ⟨⟨chain, q, P, inv, quiet⟩, books⟩ := ih
    -- the item is one that a caller has in its hands
    have held : a ∈ P := by
      rcases inv.all a out with ⟨b, inside⟩ | other
      · exact absurd ((inv.inBucket_iff b).mpr inside) (apart b)
      · rcases List.mem_append.mp other with queued | held
        · exact absurd (inv.queued_iff.mpr queued) idle
        · exact held
    obtain ⟨⟨q', inv'⟩, freed⟩ := (inv.perm (List.perm_cons_erase held)).memFree (quiet a held) run
    refine ⟨⟨chain, q', P.erase a, inv', fun x later => ?_⟩, books.memFree out idle run⟩
    rw [freed.linked x]
    exact quiet x (List.mem_of_mem_erase later)
  | reclaim before run ih =>
    obtain ⟨⟨chain, q, P, inv, idle⟩, p, at_p⟩ := ih
    obtain ⟨_, q', reclaimed, _, inv'⟩ := inv.reclaim run
    obtain ⟨p', after, _⟩ := at_p.reclaim run
    exact ⟨⟨chain, q', P, inv', fun x held => by rw [reclaimed.table]; exact idle x held⟩, p', after⟩
  | loaded before ih =>
    obtain ⟨⟨chain, q, P, inv, idle⟩, p, at_p⟩ := ih
    exact ⟨⟨chain, q, P, inv.withStatus _ _ _ _ _ _, idle⟩, p, at_p.ring, at_p.nodup, at_p.queued, at_p.finite, at_p.usedWidth,
      at_p.quiesceWidth, at_p.used, at_p.quiesce⟩

/-- The counters tell what they stand for. -/
structure Exact (X : Ext) (σ : Node) : Prop where
  used : (σ.used : Int) = (X.objTotSz * σ.handedOut + X.fragmentation * ((σ.alloc : Int) - σ.free)) % u64
  quiesce : ∃ q, Holds quisNum σ.ring σ.head σ.tail q ∧ σ.quiesce = X.objTotSz * q.length % u64

/-- `used` is exact where what it is ahead by is nothing in `unsigned long long`. -/
theorem BooksAt.used_iff {e : Nat} (books : BooksAt X σ q d e) :
    (σ.used : Int) = (X.objTotSz * σ.handedOut + X.fragmentation * ((σ.alloc : Int) - σ.free)) % u64 ↔ d % u64 = 0 := by
  generalize total : (X.objTotSz * σ.handedOut + X.fragmentation * ((σ.alloc : Int) - σ.free) : Int) = bytes
  have ahead : (σ.used : Int) ≡ bytes + d [ZMOD u64] := by
    have counted := (Int.natCast_modEq_iff.mpr books.used).sub_right ((X.fragmentation * σ.free : Nat) : Int)
    push_cast at counted
    rw [add_sub_cancel_right] at counted
    rwa [← total, mul_sub, show ∀ x y z w : Int, x + (y - z) + w = x + y + w - z by omega]
  have own : (σ.used : Int) % u64 = σ.used := Int.emod_eq_of_lt (by omega) (by exact_mod_cast books.usedWidth)
  constructor
  · intro correct
    have none : bytes + 0 ≡ bytes + d [ZMOD u64] := by
      rw [add_zero]
      refine Int.ModEq.trans ?_ ahead
      rw [Int.ModEq, own, correct]
    have zero := Int.ModEq.add_left_cancel' bytes none
    exact ((Int.natCast_modEq_iff (a := 0)).mp zero).symm
  · intro zero
    have none : (d : Int) ≡ 0 [ZMOD u64] := by exact_mod_cast Int.natCast_modEq_iff.mpr (show d ≡ 0 [MOD u64] from zero)
    have same : (σ.used : Int) ≡ bytes [ZMOD u64] := by
      refine ahead.trans ?_
      conv_rhs => rw [← add_zero bytes]
      exact none.add_left bytes
    rw [← own]
    exact same

/-- Books that are ahead by `d` are exact where this is nothing in `unsigned long long`. -/
theorem Books.exact_iff (books : Books X σ d) : Exact X σ ↔ d % u64 = 0 := by
  obtain ⟨q, books⟩ := books
  constructor
  · intro correct
    exact books.used_iff.mp correct.used
  · intro none
    refine ⟨books.used_iff.mpr none, q, books.ring, ?_⟩
    have quiesce := books.quiesce
    rw [Nat.add_zero] at quiesce
    rw [← Nat.mod_eq_of_lt books.quiesceWidth]
    exact quiesce

/-- **The counters are exact as long as no allocation has returned NULL**: each one leaves an object counted that nobody has, and
they are exact again only when these objects wrap. -/
theorem accounting_exact_iff (run : CountedRun X hash n σ) : Exact X σ ↔ n * X.objTotSz % u64 = 0 :=
  run.books.2.exact_iff

end

/-! ## A node that loads until it is full -/

/-- The assertions of `do_item_link`. -/
theorem doItemLink_ok {X : Ext} {σ : Node} {a : Addr} {hv : Nat} (linked : (σ.table.items a).linked = false)
    (slabbed : (σ.table.items a).slabbed = false) (mine : mcHv2node X.numNode hv = X.curr) :
    ∃ t, doItemLink X σ a hv = some { σ with table := t } := by
  simp only [doItemLink, linked, slabbed, assocInsert, mine]
  exact ⟨_, rfl⟩

/-- An item of a new key is linked in, if the node is the key's and its bucket has no item of that name. -/
theorem Inv.setNew {X : Ext} {hash : Key → Nat} {σ : Node} {chain : Nat → List Addr} {q P : List Addr} {a : Addr} {key : List UInt8}
    {nkey hv : Nat} (inv : Inv hash σ chain q (a :: P)) (data : List UInt8) (nbytes : Nat) (filled : σ.Filled a key nkey)
    (slabbed : (σ.table.items a).slabbed = false)
    (mine : mcHv2node X.numNode hv = X.curr) (hashed : hv = hash (nkey, key.take nkey))
    (unused : ∀ x ∈ chain (bucketOf hv), σ.table.name x ≠ (nkey, key.take nkey)) (clock : Clock) :
    ∃ fuel t, mcSetItem X fuel σ a key nkey data nbytes hv clock = some { σ with table := t } ∧
      Inv hash { σ with table := t } (Function.update chain (bucketOf hv) (a :: chain (bucketOf hv))) q P ∧ t.name = σ.table.name := by
  have notQueued : a ∉ q := fun queued => (List.nodup_append'.mp inv.nodup).2.2 queued List.mem_cons_self
  have inv₁ := inv.modify (fun i => { i with data := data.take nbytes, hv := hv }) (inv.held a List.mem_cons_self).2
    fun queued => absurd queued notQueued
  have self : (σ.modify a fun i => { i with data := data.take nbytes, hv := hv }).table.items a =
      { σ.table.items a with data := data.take nbytes, hv := hv } := Function.update_self _ _ _
  have names : (σ.modify a fun i => { i with data := data.take nbytes, hv := hv }).table.name = σ.table.name :=
    σ.table.setItem_name_same rfl
  have name := filled.name
  have absent : assocFind ((chain (bucketOf hv)).length + 1) (σ.modify a fun i => { i with data := data.take nbytes, hv := hv }).table
      key nkey hv = some none := by
    refine (assocFindLoop_path (inv₁.tidy (bucketOf hv)).path (Nat.lt_succ_self _)).trans ?_
    rw [names, List.find?_eq_none.mpr (by simpa using unused)]
  obtain ⟨t, link⟩ : ∃ t, doItemLink X (σ.modify a fun i => { i with data := data.take nbytes, hv := hv }) a hv =
      some { σ.modify a fun i => { i with data := data.take nbytes, hv := hv } with table := t } :=
    doItemLink_ok (by rw [self]; exact filled.unlinked) (by rw [self]; exact slabbed) mine
  refine ⟨(chain (bucketOf hv)).length + 1, t, ?_, ?_⟩
  · simp only [mcSetItem]
    rw [absent]
    exact link
  · rw [← names] at name unused
    obtain ⟨kept, same⟩ := inv₁.linkNew name (by rw [name, self, hashed]) (by rw [Table.home, name, hashed]) unused link
    exact ⟨kept, same.name.trans names⟩

/-- The slabs that `k` objects take. -/
def slabsOf (k : Nat) : Nat := (k + 144) / 145

/-- The node that has loaded `k` keys: every object so far is in use, and nothing has been freed. -/
def loadedNode (k : Nat) (t : Table) (tscFree : Addr → Nat) : Node where
  table := t
  tscFree := tscFree
  ring := fun _ => none
  head := 0
  tail := 0
  out := fun a => a < k
  used := 112 * k + 144 * slabsOf k
  quiesce := 0
  alloc := slabsOf k
  free := 0
  target := initMemSz 4
  map := fun p => 4 * slabsOf k ≤ p ∧ p < initMemSz 4 / pageSize
  loading := true

/-- The keys that a node loads: the numbers, in bytes. -/
def numberKey (k : Nat) : List UInt8 := leBytes keyLength k

/-- Different numbers have different keys, -/
theorem numberKey_inj {j k : Nat} (small : j < 256 ^ keyLength) (small' : k < 256 ^ keyLength) (same : numberKey j = numberKey k) : j = k := by
  have numbers := congrArg leNat same
  rwa [numberKey, numberKey, leNat_leBytes small, leNat_leBytes small'] at numbers

/-- which are as long as they should be. -/
theorem numberKey_take (k : Nat) : (numberKey k).take keyLength = numberKey k := key_take (length_leBytes _ _)

/-- How many keys the node takes: 18375 slabs of them. -/
def loadable : Nat := 145 * 18375

/-- Of the pages from `off` on the first ones are found. -/
theorem firstExtent_from {size off high n : Nat} {map : Nat → Bool} (pages : ∀ p, map p = true ↔ off ≤ p ∧ p < high)
    (positive : 0 < n) (room : off + n ≤ high) (inside : off < size) : firstExtent size map n = some off := by
  rw [firstExtent, List.find?_range_eq_some]
  refine ⟨?_, List.mem_range.mpr inside, ?_⟩
  · rw [List.all_eq_true]
    intro i member
    have small := List.mem_range.mp member
    rw [pages]
    omega
  · intro j before
    rw [Bool.not_eq_true', List.all_eq_false]
    refine ⟨0, List.mem_range.mpr positive, fun free => ?_⟩
    have below := (pages _).mp free
    omega

/-- The bitmap has four pages in a row as long as keys are loaded. -/
theorem loadedNode_extent {k : Nat} (more : k < loadable) (t : Table) (tscFree : Addr → Nat) :
    itemExt.extentFind (loadedNode k t tscFree).map 4 = some (4 * slabsOf k) := by
  have free : ∀ p, (loadedNode k t tscFree).map p = true ↔ 4 * slabsOf k ≤ p ∧ p < 74240 := by
    intro p
    simp only [loadedNode, decide_eq_true_eq]
    exact Iff.rfl
  unfold loadable at more
  simp only [itemExt]
  refine firstExtent_from free (by decide) ?_ ?_
  · unfold slabsOf
    omega
  · unfold slabsOf mapPages
    omega

/-- The test of `mc_alloc_pages` on numbers that do not wrap. -/
theorem Node.full_iff {σ : Node} (target : σ.target = initMemSz 4) (few : σ.used ≤ 2 * initMemSz 4) :
    σ.full = true ↔ initMemSz 4 * 99 < σ.used * 100 := by
  have value : initMemSz 4 = 304087040 := by decide
  rw [value] at few
  have small : σ.used * 100 < u64 := by
    unfold u64
    omega
  rw [Node.full, decide_eq_true_eq, target, value, Nat.mod_eq_of_lt small]
  exact Iff.rfl

/-- The node is not full before its last slab is, -/
theorem loadedNode_not_full {k : Nat} (more : k < loadable) (first : k % 145 = 0) (t : Table) (tscFree : Addr → Nat) :
    Node.full { loadedNode k t tscFree with used := 112 * k + 144 * slabsOf k + 112 } = false := by
  have value : initMemSz 4 = 304087040 := by decide
  unfold loadable at more
  rw [← Bool.not_eq_true, Node.full_iff rfl ?_, value]
  · simp only [slabsOf]
    omega
  · simp only [slabsOf, value]
    omega

/-- and then it is. -/
theorem loadedNode_full (t : Table) (tscFree : Addr → Nat) {used : Nat} (more : 112 * loadable + 144 * slabsOf loadable ≤ used)
    (few : used ≤ 2 * initMemSz 4) : Node.full { loadedNode loadable t tscFree with used := used } = true := by
  have value : initMemSz 4 = 304087040 := by decide
  rw [Node.full_iff rfl few, value]
  simp only [loadable, slabsOf] at more
  change 304087040 * 99 < used * 100
  omega

/-- One object more is handed out. -/
theorem out_update_lt (k : Nat) : Function.update (fun a => decide (a < k)) k true = fun a => decide (a < k + 1) := by
  funext a
  by_cases here : a = k
  · simp [here]
  · rw [Function.update_of_ne here, decide_eq_decide]
    omega

/-- The object `k` is handed out, of a slab that there is or of a new one. -/
theorem loadedNode_given {k : Nat} (t : Table) (tscFree : Addr → Nat) (key : List UInt8) {used alloc : Nat} {map : Nat → Bool}
    (counted : used = 112 * (k + 1) + 144 * slabsOf (k + 1)) (slabs : alloc = slabsOf (k + 1))
    (pages : ∀ p, map p = true ↔ 4 * slabsOf (k + 1) ≤ p ∧ p < initMemSz 4 / pageSize) :
    Node.given { loadedNode k t tscFree with used := used, alloc := alloc, map := map } k key =
      loadedNode (k + 1) ((loadedNode k t tscFree).given k key).table (Function.update tscFree k slabInUse) := by
  have bits : map = fun p => decide (4 * slabsOf (k + 1) ≤ p ∧ p < initMemSz 4 / pageSize) := by
    funext p
    rw [Bool.eq_iff_iff, decide_eq_true_eq]
    exact pages p
  simp only [Node.given, loadedNode, out_update_lt, counted, slabs, bits]

/-- A node that is not full gets the pages that its bitmap has. -/
theorem mcAllocPages_room {X : Ext} {σ : Node} {off fuel now : Nat} {clock : Nat → Nat → Clock} {el fl : List Nat}
    (notFull : σ.full = false) (found : X.extentFind σ.map X.slabPages = some off) :
    mcAllocPages X fuel now clock el fl σ = some (some off, { σ with
      map := bitmapSetContig σ.map off X.slabPages false
      alloc := σ.alloc + 1, used := (σ.used + X.fragmentation) % u64 }) := by
  simp [mcAllocPages, reclaimIf, notFull, takePages, found]

/-- **The allocation of the next object**: it takes the pages of a slab where the last one has no object left. -/
theorem loadedNode_alloc {k : Nat} (more : k < loadable) (t : Table) (tscFree : Addr → Nat) :
    AllocNulls itemExt (loadedNode k t tscFree) (numberKey k) keyLength 0 (vLength + 2) 0 (some k)
      (loadedNode (k + 1) ((loadedNode k t tscFree).given k (numberKey k)).table (Function.update tscFree k slabInUse)) := by
  have small := more
  unfold loadable at small
  have counted : (112 * k + 144 * slabsOf k + 112) % u64 = 112 * k + 144 * slabsOf k + 112 := by
    unfold slabsOf u64
    omega
  by_cases first : k % 145 = 0
  · -- the pages, then the object
    have next : slabsOf (k + 1) = slabsOf k + 1 := by
      unfold slabsOf
      omega
    have refill : mcAllocPages itemExt 0 0 (fun _ _ => ⟨0, 0⟩) [] [] { loadedNode k t tscFree with used := 112 * k + 144 * slabsOf k + 112 } =
        some (some (4 * slabsOf k), { loadedNode k t tscFree with
          used := (112 * k + 144 * slabsOf k + 112 + 144) % u64, alloc := slabsOf k + 1
          map := bitmapSetContig (loadedNode k t tscFree).map (4 * slabsOf k) 4 false }) :=
      mcAllocPages_room (loadedNode_not_full more first t tscFree) (loadedNode_extent more t tscFree)
    rw [← loadedNode_given t tscFree (numberKey k)]
    · refine .first ⟨item_size, ?_⟩ (given_fill _ _ _)
      change PsSlabAlloc itemExt { loadedNode k t tscFree with used := (112 * k + 144 * slabsOf k + 112) % u64 } _ _
      rw [counted]
      refine .pages refill (.object blankItem ?_)
      simp [loadedNode]
    · rw [next, slabsOf, u64]
      omega
    · exact next.symm
    · intro p
      simp only [bitmapSetContig, loadedNode, next]
      split_ifs with inside
      · simp only [false_iff]
        omega
      · rw [decide_eq_true_eq]
        omega
  · -- the object alone
    have next : slabsOf (k + 1) = slabsOf k := by
      unfold slabsOf
      omega
    rw [← loadedNode_given t tscFree (numberKey k)]
    · refine .first ⟨item_size, ?_⟩ (given_fill _ _ _)
      change PsSlabAlloc itemExt { loadedNode k t tscFree with used := (112 * k + 144 * slabsOf k + 112) % u64 } _ _
      rw [counted]
      refine .object blankItem ?_
      simp [loadedNode]
    · rw [next]
      omega
    · exact next.symm
    · intro p
      simp only [loadedNode, next, decide_eq_true_eq]

/-- The node has loaded `k` keys, and the items of the table are theirs. -/
structure Loaded (k : Nat) (t : Table) (tscFree : Addr → Nat) : Prop where
  run : CountedRun itemExt (fun _ => 0) 0 (loadedNode k t tscFree)
  items : ∃ chain, Inv (fun _ => 0) (loadedNode k t tscFree) chain [] [] ∧
    ∀ b, ∀ a ∈ chain b, ∃ j < k, t.name a = (keyLength, numberKey j)

/-- Nothing is loaded at the start. -/
theorem Loaded.init : Loaded 0 ⟨fun _ => none, fun _ => blankItem⟩ (fun _ => 1) := by
  have start : loadedNode 0 ⟨fun _ => none, fun _ => blankItem⟩ (fun _ => 1) = ⟨⟨fun _ => none, fun _ => blankItem⟩, fun _ => 1,
      fun _ => none, 0, 0, fun _ => false, 0, 0, 0, 0, initMemSz 4, fun p => 0 ≤ p ∧ p < 0 + initMemSz 4 / pageSize, true⟩ := by
    simp [loadedNode, slabsOf]
  refine ⟨?_, fun _ => [], ?_, by simp⟩
  · rw [start]
    exact .init _ _ 0
  · rw [start]
    exact Inv.init _ _ _ _ _ _

/-- **One more key**, as long as there is room. -/
theorem Loaded.next {k : Nat} {t : Table} {tscFree : Addr → Nat} (loaded : Loaded k t tscFree) (more : k < loadable) :
    ∃ t' tscFree', Loaded (k + 1) t' tscFree' := by
  obtain ⟨chain, inv, names⟩ := loaded.items
  have free : (loadedNode k t tscFree).out k = false := by simp [loadedNode]
  have older : ∀ b, ∀ x ∈ chain b, x ≠ k := by
    rintro b x member rfl
    rw [(inv.chained b x member).1] at free
    cases free
  -- the item once it has been filled
  have status := inv.withStatus (112 * (k + 1) + 144 * slabsOf (k + 1)) 0 (slabsOf (k + 1)) 0
    (fun p => decide (4 * slabsOf (k + 1) ≤ p ∧ p < initMemSz 4 / pageSize)) true
  obtain ⟨inv₁, _, filled⟩ := (status.handOut blankItem free).fill (by simp [Node.Idle]) (given_fill _ k (numberKey k))
  have same := loadedNode_given (k := k) t tscFree (numberKey k) rfl rfl fun p => decide_eq_true_iff
  change Inv _ (Node.given { loadedNode k t tscFree with used := _, alloc := _, map := _ } k (numberKey k)) _ _ _ at inv₁
  change (Node.given { loadedNode k t tscFree with used := _, alloc := _, map := _ } k (numberKey k)).Filled _ _ _ at filled
  rw [same] at inv₁ filled
  have other : ∀ x, x ≠ k → ((loadedNode k t tscFree).given k (numberKey k)).table.name x = t.name x :=
    fun x differ => t.setItem_name_other _ differ
  have unused : ∀ x ∈ chain (bucketOf 0), ((loadedNode k t tscFree).given k (numberKey k)).table.name x ≠
      (keyLength, (numberKey k).take keyLength) := by
    intro x member equal
    obtain ⟨j, before, name⟩ := names _ x member
    rw [other x (older _ x member), name, numberKey_take] at equal
    have small : loadable < 256 ^ keyLength := by decide
    have number := numberKey_inj (by omega) (by omega) (Prod.mk.inj equal).2
    omega
  have slabbed : (((loadedNode k t tscFree).given k (numberKey k)).table.items k).slabbed = false := by
    simp [Node.given, Table.setItem]
  obtain ⟨fuel, t', set, inv', names'⟩ := inv₁.setNew (X := itemExt) (List.replicate vLength 0) vLength filled slabbed rfl rfl unused
    ⟨0, 0⟩
  refine ⟨t', Function.update tscFree k slabInUse, ?_, _, inv', fun b x member => ?_⟩
  · exact loaded.run.set (length_leBytes _ _) List.length_replicate rfl (.ok (loadedNode_alloc more t tscFree) set)
  · rw [names']
    have place : x = k ∨ x ∈ chain b := by
      by_cases here : b = bucketOf 0
      · subst here
        rw [Function.update_self] at member
        exact List.mem_cons.mp member
      · rw [Function.update_of_ne here] at member
        exact Or.inr member
    rcases place with rfl | old
    · exact ⟨x, Nat.lt_succ_self x, filled.name.trans (by rw [numberKey_take])⟩
    · obtain ⟨j, before, name⟩ := names b x old
      exact ⟨j, by omega, (other x (older b x old)).trans name⟩

/-- So any number of keys that fits can be loaded. -/
theorem loaded_run {k : Nat} (few : k ≤ loadable) : ∃ t tscFree, Loaded k t tscFree := by
  induction k with
  | zero => exact ⟨_, _, Loaded.init⟩
  | succ k ih =>
    obtain ⟨t, tscFree, loaded⟩ := ih (by omega)
    exact loaded.next few

/-- Nothing is on the ring, so that reclaiming does nothing, and `mc_alloc_pages` gives up. -/
theorem loadedNode_refused {t : Table} {tscFree : Addr → Nat} {used : Nat} (more : 112 * loadable + 144 * slabsOf loadable ≤ used)
    (few : used ≤ 2 * initMemSz 4) :
    PsSlabAlloc itemExt { loadedNode loadable t tscFree with used := used } none { loadedNode loadable t tscFree with used := used } := by
  have full := loadedNode_full t tscFree more few
  have reclaim : memSmrReclaim itemExt { loadedNode loadable t tscFree with used := used } 0 =
      some (0, { loadedNode loadable t tscFree with used := used }) := rfl
  have loading : ({ loadedNode loadable t tscFree with used := used } : Node).loading = true := rfl
  generalize ({ loadedNode loadable t tscFree with used := used } : Node) = σ at full reclaim loading
  have refill : mcAllocPages itemExt 0 0 (fun _ _ => ⟨0, 0⟩) [] [] σ = some (none, σ) := by
    simp [mcAllocPages, reclaimIf, full, reclaim, loading]
  exact .refused refill

/-- A node has loaded as many keys as it takes. The next set fails, and `used` has grown by two objects that nobody has. -/
theorem accounting_set_refused :
    ∃ σ σ', CountedRun itemExt (fun _ => 0) 0 σ ∧ Exact itemExt σ ∧
      SetNulls itemExt σ (numberKey loadable) keyLength (List.replicate vLength 0) vLength 0 2 none σ' ∧
      CountedRun itemExt (fun _ => 0) 2 σ' ∧ σ'.out = σ.out ∧ σ'.used = σ.used + 224 ∧ ¬ Exact itemExt σ' := by
  obtain ⟨t, tscFree, loaded⟩ := loaded_run (Nat.le_refl loadable)
  have numbers : loadable = 2664375 ∧ slabsOf loadable = 18375 ∧ initMemSz 4 = 304087040 := by decide
  have fails : SetNulls itemExt (loadedNode loadable t tscFree) (numberKey loadable) keyLength (List.replicate vLength 0) vLength 0 2 none
      { loadedNode loadable t tscFree with used := 112 * loadable + 144 * slabsOf loadable + 224 } := by
    have first : (112 * loadable + 144 * slabsOf loadable + 112) % u64 = 112 * loadable + 144 * slabsOf loadable + 112 := by decide
    have second : (112 * loadable + 144 * slabsOf loadable + 112 + 112) % u64 = 112 * loadable + 144 * slabsOf loadable + 224 := by decide
    have alloc : PsMemAlloc itemExt (loadedNode loadable t tscFree) mcSlabObjSz none
        { loadedNode loadable t tscFree with used := 112 * loadable + 144 * slabsOf loadable + 112 } := by
      refine ⟨rfl, ?_⟩
      change PsSlabAlloc itemExt { loadedNode loadable t tscFree with used := (112 * loadable + 144 * slabsOf loadable + 112) % u64 } _ _
      rw [first]
      exact loadedNode_refused (by omega) (by decide)
    have again : PsMemAlloc itemExt
        { loadedNode loadable t tscFree with used := 112 * loadable + 144 * slabsOf loadable + 112 } mcSlabObjSz none
        { loadedNode loadable t tscFree with used := 112 * loadable + 144 * slabsOf loadable + 224 } := by
      refine ⟨rfl, ?_⟩
      change PsSlabAlloc itemExt { loadedNode loadable t tscFree with
        used := (112 * loadable + 144 * slabsOf loadable + 112 + 112) % u64 } _ _
      rw [second]
      exact loadedNode_refused (by omega) (by decide)
    rw [← item_size] at alloc again
    exact .error (.fails alloc again)
  have run := loaded.run.set (length_leBytes _ _) List.length_replicate rfl fails
  refine ⟨_, _, loaded.run, loaded.run.books.2.exact_iff.mpr (by decide), fails, run, rfl, rfl, fun correct => ?_⟩
  exact absurd (run.books.2.exact_iff.mp correct) (by decide)

/-- A key is set, and an item is allocated and freed without being linked: it waits on the ring and is counted there. -/
theorem accounting_exact_item_freed :
    ∃ σ, CountedRun itemExt (fun _ => 0) 0 σ ∧ σ.used = 2 * 112 + 144 ∧ σ.Queued 1 ∧ σ.quiesce = 112 ∧ Exact itemExt σ := by
  obtain ⟨t, tscFree, loaded⟩ := loaded_run (k := 1) (by decide)
  have alloc := loadedNode_alloc (k := 1) (by decide) t tscFree
  have run := loaded.run.alloc alloc
  obtain ⟨chain, inv, _⟩ := loaded.items
  obtain ⟨chain', q', inv', _⟩ := inv.itemAlloc (by simp [Node.Idle]) alloc.itemAlloc
  generalize ((loadedNode 1 t tscFree).given 1 (numberKey 1)).table = t', Function.update tscFree 1 slabInUse = tsc' at run inv'
  have held := inv'.held 1 (by simp)
  have apart : ∀ b, ¬ (loadedNode 2 t' tsc').table.InBucket b 1 := fun b inside => held.2 b ((inv'.inBucket_iff b).mp inside)
  have idle : ¬ (loadedNode 2 t' tsc').Queued 1 := fun queued =>
    (List.nodup_append'.mp inv'.nodup).2.2 (inv'.queued_iff.mp queued) (by simp)
  have free : parsecMemFree itemExt (loadedNode 2 t' tsc') 1 ⟨5, 0⟩ = some { loadedNode 2 t' tsc' with
      tscFree := Function.update tsc' 1 5, ring := Function.update (fun _ => none) 0 (some 1), tail := 1, quiesce := 112 } := rfl
  have freed := run.free held.1 apart idle free
  exact ⟨_, freed, rfl, ⟨0, by decide, rfl⟩, rfl, (accounting_exact_iff freed).mpr (by decide)⟩

end BiProject.BiMc
