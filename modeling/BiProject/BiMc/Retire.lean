import BiProject.BiMc.Memcache
import BiProject.BiMc.Writers
import Mathlib.Data.List.Nodup

/-!
# Items that are retired

An item that is handed out is in the table, on the quiescence ring, or in the hands of a call. The invariant
says which, and that the flag `ITEM_LINKED` tells the first from the second. It holds across calls that
reclaim and evict while they allocate, so that the ring never holds an item of the table.
-/

namespace BiProject.BiMc
set_option autoImplicit false
open BiProject.Lib.Chains BiProject.Lib.Ring

/-- **The invariant**: the chains of the buckets, the items on the ring, and those a call has in its hands. -/
structure Inv (hash : Key → Nat) (σ : Node) (chain : Nat → List Addr) (q P : List Addr) : Prop where
  tidy : ∀ b, Tidy hash σ.table b (chain b)
  hv : ∀ b, ∀ a ∈ chain b, (σ.table.items a).hv = hash (σ.table.name a)
  chained : ∀ b, ∀ a ∈ chain b, σ.out a = true ∧ (σ.table.items a).linked = true
  ring : Holds quisNum σ.ring σ.head σ.tail q
  nodup : (q ++ P).Nodup
  queued : ∀ a ∈ q, σ.out a = true ∧ (σ.table.items a).linked = false
  held : ∀ a ∈ P, σ.out a = true ∧ ∀ b, a ∉ chain b
  all : ∀ a, σ.out a = true → (∃ b, a ∈ chain b) ∨ a ∈ q ++ P

/-- An object that is not in use is not marked as linked. -/
def Node.Settled (σ : Node) (a : Addr) : Prop := σ.out a = true ∨ (σ.table.items a).linked = false

/-- The items that calls have in their hands are not marked as linked. -/
def Node.Idle (σ : Node) (P : List Addr) : Prop := ∀ a ∈ P, (σ.table.items a).linked = false

section
variable {X : Ext} {hash : Key → Nat} {σ σ' : Node} {chain : Nat → List Addr} {q P : List Addr} {a : Addr}

/-- What is in a bucket does not wait on the ring. -/
theorem Inv.not_queued (inv : Inv hash σ chain q P) {b : Nat} (member : a ∈ chain b) : a ∉ q := by
  intro queued
  have linked := (inv.chained b a member).2
  rw [(inv.queued a queued).2] at linked
  cases linked

/-- A linked item that is handed out, and that no call holds, is in a chain. -/
theorem Inv.in_chain (inv : Inv hash σ chain q P) (out : σ.out a = true) (linked : (σ.table.items a).linked = true)
    (free : a ∉ P) : ∃ b, a ∈ chain b := by
  rcases inv.all a out with inside | other
  · exact inside
  · rcases List.mem_append.mp other with queued | held
    · rw [(inv.queued a queued).2] at linked
      cases linked
    · exact absurd held free

/-! ## Reclaiming -/

/-- Another `struct mc_status`. -/
theorem Inv.withStatus (inv : Inv hash σ chain q P) (used quiesce alloc free : Nat) (map : Nat → Bool) (loading : Bool) :
    Inv hash { σ with used := used, quiesce := quiesce, alloc := alloc, free := free, map := map, loading := loading } chain q P :=
  ⟨inv.tidy, inv.hv, inv.chained, inv.ring, inv.nodup, inv.queued, inv.held, inv.all⟩

/-- What `ps_slab_free_coreid_item` does beyond the counters and the bitmap. -/
theorem psSlabFreeItem_eq (X : Ext) (σ : Node) (a : Addr) :
    ∃ used free map, psSlabFreeItem X σ a = { σ with
      out := Function.update σ.out a false, tscFree := Function.update σ.tscFree a (X.afterFree a)
      used := used, free := free, map := map } := by
  unfold psSlabFreeItem
  by_cases back : X.givesBack (Function.update σ.out a false) a = true
  · exact ⟨_, _, _, if_pos back⟩
  · exact ⟨σ.used, σ.free, σ.map, if_neg back⟩

/-- The oldest item of the ring is returned to the allocator. -/
theorem Inv.dequeue (inv : Inv hash σ chain (a :: q) P) :
    qscRingPeek σ = some a ∧ Inv hash (psSlabFreeItem X (qscRingDequeue σ).2 a) chain q P := by
  have first : σ.ring σ.head = some a := inv.ring.peek
  refine ⟨first, ?_⟩
  have dequeued : (qscRingDequeue σ).2 =
      { σ with ring := Function.update σ.ring σ.head none, head := next quisNum σ.head } := by
    rw [qscRingDequeue, first]
    rfl
  rw [dequeued]
  obtain ⟨used, free, map, freed⟩ := psSlabFreeItem_eq X { σ with ring := Function.update σ.ring σ.head none, head := next quisNum σ.head } a
  rw [freed]
  have distinct := List.nodup_cons.mp inv.nodup
  have still : ∀ x, x ≠ a → Function.update σ.out a false x = σ.out x := fun x differ => Function.update_of_ne differ _ _
  refine ⟨inv.tidy, inv.hv, fun b x member => ?_, inv.ring.pop, distinct.2, fun x member => ?_, fun x member => ?_, fun x out => ?_⟩
  · have differ : x ≠ a := by
      rintro rfl
      exact inv.not_queued member List.mem_cons_self
    exact ⟨(still x differ).trans (inv.chained b x member).1, (inv.chained b x member).2⟩
  · have differ : x ≠ a := by
      rintro rfl
      exact distinct.1 (List.mem_append_left P member)
    have old := inv.queued x (List.mem_cons_of_mem a member)
    exact ⟨(still x differ).trans old.1, old.2⟩
  · have differ : x ≠ a := by
      rintro rfl
      exact distinct.1 (List.mem_append_right q member)
    have old := inv.held x member
    exact ⟨(still x differ).trans old.1, old.2⟩
  · have differ : x ≠ a := by
      rintro rfl
      simp at out
    have was : σ.out x = true := (still x differ).symm.trans out
    rcases inv.all x was with inside | other
    · exact Or.inl inside
    · exact Or.inr ((List.mem_cons.mp other).resolve_left differ)

/-- What reclaiming does: some of the oldest items of the ring are returned. -/
structure Reclaimed (σ σ' : Node) (q freed q' : List Addr) : Prop where
  split : q = freed ++ q'
  table : σ'.table = σ.table
  out : ∀ x, σ'.out x = true ↔ σ.out x = true ∧ x ∉ freed

/-- The loop of a reclaim takes entries off the ring, as many as it counts. -/
theorem Inv.reclaimLoop (inv : Inv hash σ chain q P) {qsc fuel i i' : Nat}
    (run : memSmrReclaimLoop X qsc fuel i σ = some (i', σ')) :
    ∃ freed q', Reclaimed σ σ' q freed q' ∧ i' = i + freed.length * X.objTotSz ∧ Inv hash σ' chain q' P := by
  induction fuel generalizing σ q i with
  | zero => cases run
  | succ fuel ih =>
    have stops : ∀ {i : Nat} {σ : Node} {q : List Addr}, Inv hash σ chain q P → (i, σ) = (i', σ') →
        ∃ freed q', Reclaimed σ σ' q freed q' ∧ i' = i + freed.length * X.objTotSz ∧ Inv hash σ' chain q' P := by
      rintro i σ q inv ⟨⟩
      exact ⟨[], q, ⟨rfl, rfl, by simp⟩, by simp, inv⟩
    rw [memSmrReclaimLoop] at run
    cases q with
    | nil =>
      rw [show qscRingPeek σ = none from inv.ring.peek] at run
      exact stops inv (Option.some.inj run)
    | cons a q =>
      obtain ⟨peek, inv'⟩ := inv.dequeue (X := X)
      rw [peek] at run
      simp only at run
      split_ifs at run with early core
      · exact stops inv (Option.some.inj run)
      · obtain ⟨freed, q', reclaimed, bytes, kept⟩ := ih inv' run
        refine ⟨a :: freed, q', ⟨by rw [reclaimed.split]; rfl, ?_, fun x => ?_⟩, ?_, kept⟩
        · obtain ⟨used, free, map, after⟩ := psSlabFreeItem_eq X (qscRingDequeue σ).2 a
          rw [reclaimed.table, after, qscRingDequeue, show σ.ring σ.head = some a from peek]
        · obtain ⟨used, free, map, after⟩ := psSlabFreeItem_eq X (qscRingDequeue σ).2 a
          rw [reclaimed.out x, after, qscRingDequeue, show σ.ring σ.head = some a from peek]
          by_cases here : x = a
          · simp [here]
          · simp [here]
        · rw [bytes, List.length_cons, Nat.succ_mul]
          omega

/-- **`mem_smr_reclaim`** returns items of the ring, each once, and none of the table. -/
theorem Inv.reclaim (inv : Inv hash σ chain q P) {now i : Nat} (run : memSmrReclaim X σ now = some (i, σ')) :
    ∃ freed q', Reclaimed σ σ' q freed q' ∧ i = freed.length * X.objTotSz ∧ Inv hash σ' chain q' P := by
  unfold memSmrReclaim at run
  split at run
  · obtain ⟨rfl, rfl⟩ := Prod.mk.inj (Option.some.inj run)
    exact ⟨[], q, ⟨rfl, rfl, by simp⟩, by simp, inv⟩
  · simp only [Option.bind_eq_bind, Option.bind_eq_some_iff, Option.pure_def, Option.some.injEq, Prod.mk.injEq, Prod.exists] at run
    obtain ⟨j, σ₁, loop, rfl, rfl⟩ := run
    obtain ⟨freed, q', reclaimed, bytes, kept⟩ := inv.reclaimLoop loop
    refine ⟨freed, q', ⟨reclaimed.split, reclaimed.table, reclaimed.out⟩, by omega, kept.withStatus _ _ _ _ _ _⟩

/-- What reclaiming keeps of the objects. -/
theorem Reclaimed.settled {freed q' : List Addr} (reclaimed : Reclaimed σ σ' q freed q') (inv : Inv hash σ chain q P) {x : Addr}
    (settled : σ.Settled x) : σ'.Settled x := by
  by_cases inside : x ∈ freed
  · right
    rw [reclaimed.table]
    exact (inv.queued x (by simp [reclaimed.split, inside])).2
  · rcases settled with out | unlinked
    · exact Or.inl ((reclaimed.out x).mpr ⟨out, inside⟩)
    · right
      rw [reclaimed.table]
      exact unlinked

/-! ## Freeing -/

/-- Another mark in a header. -/
theorem Inv.withTsc (inv : Inv hash σ chain q P) (tscFree : Addr → Nat) : Inv hash { σ with tscFree := tscFree } chain q P :=
  ⟨inv.tidy, inv.hv, inv.chained, inv.ring, inv.nodup, inv.queued, inv.held, inv.all⟩

/-- An item that is in no chain is changed; if it is on the ring it stays unlinked. -/
theorem Inv.modify (inv : Inv hash σ chain q P) (f : Item → Item) (absent : ∀ b, a ∉ chain b)
    (unlinked : a ∈ q → (f (σ.table.items a)).linked = false) : Inv hash (σ.modify a f) chain q P := by
  have differ : ∀ b, ∀ x ∈ chain b, x ≠ a := by
    rintro b x member rfl
    exact absent b member
  have same : ∀ x, x ≠ a → (σ.modify a f).table.items x = σ.table.items x := fun x other => Function.update_of_ne other _ _
  refine ⟨fun b => (inv.tidy b).setItem _ (absent b), fun b x member => ?_, fun b x member => ?_, inv.ring, inv.nodup,
    fun x member => ?_, inv.held, inv.all⟩
  · rw [Table.name, same x (differ b x member)]
    exact inv.hv b x member
  · rw [same x (differ b x member)]
    exact inv.chained b x member
  · refine ⟨(inv.queued x member).1, ?_⟩
    by_cases here : x = a
    · subst here
      simpa [Node.modify, Table.setItem] using unlinked member
    · rw [same x here]
      exact (inv.queued x member).2

/-- What freeing does to the table: nothing but to fields of the item itself. -/
structure Freed (σ σ' : Node) : Prop where
  link : σ'.table.link = σ.table.link
  name : σ'.table.name = σ.table.name
  data : ∀ x, (σ'.table.items x).data = (σ.table.items x).data
  linked : ∀ x, (σ'.table.items x).linked = (σ.table.items x).linked
  settled : ∀ x, σ.Settled x → σ'.Settled x

/-- A reclaim, if it comes to one, leaves the table as it is. -/
theorem Inv.reclaimIf (inv : Inv hash σ chain q P) {cond : Bool} {now : Nat} (run : BiMc.reclaimIf X cond σ now = some σ') :
    ∃ q', Inv hash σ' chain q' P ∧ σ'.table = σ.table ∧ ∀ x, σ.Settled x → σ'.Settled x := by
  unfold BiMc.reclaimIf at run
  split_ifs at run
  · obtain ⟨⟨i, σ₁⟩, called, rfl⟩ := Option.map_eq_some_iff.mp run
    obtain ⟨freed, q', reclaimed, _, inv'⟩ := inv.reclaim called
    exact ⟨q', inv', reclaimed.table, fun x => reclaimed.settled inv⟩
  · obtain rfl := Option.some.inj run
    exact ⟨q, inv, rfl, fun x => id⟩

/-- **`qsc_ring_enqueue`**, where it reclaims first if the ring is full. -/
theorem Inv.enqueue (inv : Inv hash σ chain q (a :: P)) (unlinked : (σ.table.items a).linked = false) {now : Nat}
    (run : qscRingEnqueue X σ a now = some σ') : (∃ q', Inv hash σ' chain q' P) ∧ Freed σ σ' := by
  simp only [qscRingEnqueue, Option.bind_eq_bind, Option.bind_eq_some_iff, Option.guard_eq_some', Option.pure_def,
    Option.some.injEq] at run
  obtain ⟨σ₁, reclaim, _, room, rfl⟩ := run
  obtain ⟨q₁, inv₁, table, settled⟩ := inv.reclaimIf reclaim
  have here := inv₁.held a List.mem_cons_self
  refine ⟨⟨q₁ ++ [a], inv₁.tidy, inv₁.hv, inv₁.chained, inv₁.ring.push a room, ?_, ?_, ?_, ?_⟩, ?_⟩
  · rw [List.append_assoc]
    exact inv₁.nodup
  · intro x member
    rcases List.mem_append.mp member with old | new
    · exact inv₁.queued x old
    · rw [List.mem_singleton.mp new]
      exact ⟨here.1, by rw [table]; exact unlinked⟩
  · exact fun x member => inv₁.held x (List.mem_cons_of_mem a member)
  · intro x out
    rw [List.append_assoc]
    exact inv₁.all x out
  · exact ⟨by simp only [table], by simp only [table], fun x => by simp only [table], fun x => by simp only [table], settled⟩

/-- The fields that the table sees stay. -/
theorem Table.setItem_link_same (t : Table) {it : Item} (next : it.hNext = (t.items a).hNext) : (t.setItem a it).link = t.link := by
  funext c
  by_cases here : c = .next a
  · subst here
    simp [Table.link, Table.setItem, next]
  · exact t.setItem_link_other it here

/-- An item that keeps its key keeps it for everyone. -/
theorem Table.setItem_name_same (t : Table) {it : Item} (name : it.name = t.name a) : (t.setItem a it).name = t.name := by
  funext x
  by_cases here : x = a
  · subst here
    rw [t.setItem_name_self, name]
  · exact t.setItem_name_other it here

/-- **`parsec_mem_free`** on an item that a call has in its hands. -/
theorem Inv.memFree (inv : Inv hash σ chain q (a :: P)) (unlinked : (σ.table.items a).linked = false) {clock : Clock}
    (run : parsecMemFree X σ a clock = some σ') : (∃ q', Inv hash σ' chain q' P) ∧ Freed σ σ' := by
  simp only [parsecMemFree, Option.bind_eq_bind, Option.bind_eq_some_iff, Option.pure_def, Option.some.injEq] at run
  obtain ⟨τ, queued, rfl⟩ := run
  obtain ⟨⟨q', kept⟩, same⟩ := (inv.withTsc (Function.update σ.tscFree a clock.tsc)).enqueue unlinked queued
  exact ⟨⟨q', kept.withStatus _ _ _ _ _ _⟩, same.link, same.name, same.data, same.linked, same.settled⟩

/-- **`do_item_remove_free`** on an item that a call has taken out of its chain. -/
theorem Inv.removeFree (inv : Inv hash σ chain q (a :: P)) (unlinked : (σ.table.items a).linked = false) {clock : Clock}
    (run : doItemRemoveFree X σ a clock = some σ') : (∃ q', Inv hash σ' chain q' P) ∧ Freed σ σ' := by
  simp only [doItemRemoveFree, itemFree, Option.bind_eq_bind, Option.bind_eq_some_iff] at run
  obtain ⟨_, _, freed⟩ := run
  have here := inv.held a List.mem_cons_self
  have cleared := inv.modify (fun it => { it with slabsClsid := 0 }) here.2 fun _ => unlinked
  obtain ⟨kept, same⟩ := cleared.memFree (by simpa [Node.modify, Table.setItem] using unlinked) freed
  have self : (σ.modify a fun it => { it with slabsClsid := 0 }).table.items a = { σ.table.items a with slabsClsid := 0 } :=
    Function.update_self _ _ _
  have other : ∀ x, x ≠ a → (σ.modify a fun it => { it with slabsClsid := 0 }).table.items x = σ.table.items x :=
    fun x differ => Function.update_of_ne differ _ _
  refine ⟨kept, ?_, ?_, fun x => ?_, fun x => ?_, fun x settled => same.settled x ?_⟩
  · exact same.link.trans (σ.table.setItem_link_same rfl)
  · exact same.name.trans (σ.table.setItem_name_same rfl)
  · rw [same.data x]
    by_cases this : x = a
    · rw [this, self]
    · rw [other x this]
  · rw [same.linked x]
    by_cases this : x = a
    · rw [this, self]
    · rw [other x this]
  · by_cases this : x = a
    · exact Or.inl (by rw [this]; exact here.1)
    · rcases settled with out | quiet
      · exact Or.inl out
      · exact Or.inr (by rw [other x this]; exact quiet)

/-! ## Stores to a chain -/

/-- What stays where a call stores to the chain of one bucket: all but the flags of the item `a`. -/
structure Relinked (σ σ' : Node) (a : Addr) : Prop where
  name : σ'.table.name = σ.table.name
  hv : ∀ x, (σ'.table.items x).hv = (σ.table.items x).hv
  data : ∀ x, (σ'.table.items x).data = (σ.table.items x).data
  linked : ∀ x, x ≠ a → (σ'.table.items x).linked = (σ.table.items x).linked
  out : σ'.out = σ.out
  ring : σ'.ring = σ.ring ∧ σ'.head = σ.head ∧ σ'.tail = σ.tail

/-- Items that go from one place to another are in one of the old places and in one of the new ones. -/
theorem moved_mem {xs ms es ys : List Addr} (moved : (xs ++ ms).Perm (es ++ ys)) (x : Addr) : x ∈ xs ∨ x ∈ ms ↔ x ∈ es ∨ x ∈ ys := by
  rw [← List.mem_append, moved.mem_iff, List.mem_append]

section
variable {b : Nat} {xs es ms : List Addr} (inv : Inv hash σ chain q (es ++ P)) (moved : (xs ++ ms).Perm (es ++ chain b))
include inv moved

/-- The items of the new chain and those that left it are different ones. -/
theorem Inv.moved_nodup : (xs ++ ms).Nodup := by
  rw [moved.nodup_iff]
  have held := (List.nodup_append'.mp inv.nodup).2.1
  refine List.nodup_append'.mpr ⟨(List.nodup_append'.mp held).1, ((inv.tidy b).names).of_map, ?_⟩
  exact fun x enters member => (inv.held x (List.mem_append_left P enters)).2 b member

/-- What stays is not what has moved. -/
theorem Inv.moved_apart {x : Addr} (stays : x ∈ xs) : x ∉ ms :=
  fun leaves => (List.nodup_append'.mp (inv.moved_nodup moved)).2.2 stays leaves

/-- What leaves the chain was in no other one. -/
theorem Inv.moved_elsewhere {b' : Nat} (differ : b' ≠ b) {x : Addr} (member : x ∈ chain b') : x ∉ ms := by
  intro leaves
  rcases (moved_mem moved x).mp (Or.inr leaves) with enters | here
  · exact (inv.held x (List.mem_append_left P enters)).2 b' member
  · exact differ (((inv.tidy b').home x member).symm.trans ((inv.tidy b).home x here))

/-- Nothing is on the ring twice, or on it and about to be. -/
theorem Inv.moved_books : (q ++ (ms ++ P)).Nodup := by
  obtain ⟨queue, held, apart⟩ := List.nodup_append'.mp inv.nodup
  refine List.nodup_append'.mpr ⟨queue, List.nodup_append'.mpr ⟨(List.nodup_append'.mp (inv.moved_nodup moved)).2.1,
    (List.nodup_append'.mp held).2.1, fun x leaves holds => ?_⟩, fun x queued member => ?_⟩
  · rcases (moved_mem moved x).mp (Or.inr leaves) with enters | here
    · exact (List.nodup_append'.mp held).2.2 enters holds
    · exact (inv.held x (List.mem_append_right es holds)).2 b here
  · rcases List.mem_append.mp member with leaves | holds
    · rcases (moved_mem moved x).mp (Or.inr leaves) with enters | here
      · exact apart queued (List.mem_append_left P enters)
      · exact inv.not_queued here queued
    · exact apart queued (List.mem_append_right es holds)

/-- The call has what left the chain, and what it had besides. -/
theorem Inv.moved_held {x : Addr} (member : x ∈ ms ++ P) : σ.out x = true ∧ ∀ b', x ∉ Function.update chain b xs b' := by
  rcases List.mem_append.mp member with leaves | held
  · refine ⟨?_, fun b' inChain => ?_⟩
    · rcases (moved_mem moved x).mp (Or.inr leaves) with enters | here
      · exact (inv.held x (List.mem_append_left P enters)).1
      · exact (inv.chained b x here).1
    · by_cases this : b' = b
      · subst this
        rw [Function.update_self] at inChain
        exact inv.moved_apart moved inChain leaves
      · rw [Function.update_of_ne this] at inChain
        exact inv.moved_elsewhere moved this inChain leaves
  · have old := inv.held x (List.mem_append_right es held)
    refine ⟨old.1, fun b' inChain => ?_⟩
    by_cases this : b' = b
    · subst this
      rw [Function.update_self] at inChain
      rcases (moved_mem moved x).mp (Or.inl inChain) with enters | here
      · exact (List.nodup_append'.mp (List.nodup_append'.mp inv.nodup).2.1).2.2 enters held
      · exact old.2 b' here
    · rw [Function.update_of_ne this] at inChain
      exact old.2 b' inChain

/-- Nothing is lost. -/
theorem Inv.moved_all {x : Addr} (out : σ.out x = true) : (∃ b', x ∈ Function.update chain b xs b') ∨ x ∈ q ++ (ms ++ P) := by
  have entersOrLeaves : x ∈ xs ∨ x ∈ ms → (∃ b', x ∈ Function.update chain b xs b') ∨ x ∈ q ++ (ms ++ P) := by
    rintro (stays | leaves)
    · exact Or.inl ⟨b, by rwa [Function.update_self]⟩
    · exact Or.inr (by simp [leaves])
  rcases inv.all x out with ⟨b', member⟩ | other
  · by_cases this : b' = b
    · subst this
      exact entersOrLeaves ((moved_mem moved x).mpr (Or.inr member))
    · exact Or.inl ⟨b', by rwa [Function.update_of_ne this]⟩
  · simp only [List.mem_append] at other
    rcases other with queued | enters | held
    · exact Or.inr (by simp [queued])
    · exact entersOrLeaves ((moved_mem moved x).mpr (Or.inl enters))
    · exact Or.inr (by simp [held])

end

/-- **The chain of a bucket changes**: the items `ms` leave it and are in the hands of the call, the items `es` that
the call had enter it. -/
theorem Inv.relink {b : Nat} {xs : List Addr} (es ms : List Addr) (inv : Inv hash σ chain q (es ++ P)) (same : Relinked σ σ' a)
    (tidy : Tidy hash σ'.table b xs) (others : ∀ b', b' ≠ b → ∀ c, σ.table.cellHome hash c = b' → σ'.table.link c = σ.table.link c)
    (moved : (xs ++ ms).Perm (es ++ chain b)) (flag : ∀ b, a ∈ chain b → a ∈ ms)
    (entered : ∀ x ∈ es, (σ'.table.items x).linked = true ∧ (σ'.table.items x).hv = hash (σ'.table.name x)) (notQueued : a ∉ q) :
    Inv hash σ' (Function.update chain b xs) q (ms ++ P) := by
  have kept : ∀ b', ∀ x ∈ chain b', x ∉ ms → (σ'.table.items x).linked = true := by
    intro b' x member stays
    rw [same.linked x fun this => stays (this ▸ flag b' (this ▸ member))]
    exact (inv.chained b' x member).2
  refine ⟨fun b' => ?_, fun b' x member => ?_, fun b' x member => ?_, ?_, inv.moved_books moved, fun x member => ?_, fun x member => ?_,
    fun x out => ?_⟩
  · by_cases this : b' = b
    · subst this
      rwa [Function.update_self]
    · rw [Function.update_of_ne this]
      exact (inv.tidy b').frame same.name (others b' this)
  · by_cases this : b' = b
    · subst this
      rw [Function.update_self] at member
      rcases (moved_mem moved x).mp (Or.inl member) with enters | stays
      · exact (entered x enters).2
      · rw [same.hv, same.name]
        exact inv.hv b' x stays
    · rw [Function.update_of_ne this] at member
      rw [same.hv, same.name]
      exact inv.hv b' x member
  · rw [same.out]
    by_cases this : b' = b
    · subst this
      rw [Function.update_self] at member
      rcases (moved_mem moved x).mp (Or.inl member) with enters | stays
      · exact ⟨(inv.held x (List.mem_append_left P enters)).1, (entered x enters).1⟩
      · exact ⟨(inv.chained b' x stays).1, kept b' x stays (inv.moved_apart moved member)⟩
    · rw [Function.update_of_ne this] at member
      exact ⟨(inv.chained b' x member).1, kept b' x member (inv.moved_elsewhere moved this member)⟩
  · rw [same.ring.1, same.ring.2.1, same.ring.2.2]
    exact inv.ring
  · rw [same.out, same.linked x fun this => notQueued (this ▸ member)]
    exact inv.queued x member
  · rw [same.out]
    exact inv.moved_held moved member
  · rw [same.out] at out
    exact inv.moved_all moved out

/-- A store to a link leaves the other fields of all items. -/
theorem Relinked.store (σ : Node) (s : Store) (a : Addr) : Relinked σ { σ with table := σ.table.store s } a := by
  have same := fun x => σ.table.store_items s x
  refine ⟨σ.table.store_name s, fun x => ?_, fun x => ?_, fun x _ => ?_, rfl, rfl, rfl, rfl⟩ <;>
    · obtain ⟨p, after⟩ := same x
      show _ = _
      simp only [after]

/-- One change of the table after another. -/
theorem Relinked.trans {σ₁ σ₂ σ₃ : Node} (first : Relinked σ₁ σ₂ a) (second : Relinked σ₂ σ₃ a) : Relinked σ₁ σ₃ a :=
  ⟨second.name.trans first.name, fun x => (second.hv x).trans (first.hv x), fun x => (second.data x).trans (first.data x),
    fun x differ => (second.linked x differ).trans (first.linked x differ), second.out.trans first.out,
    second.ring.1.trans first.ring.1, second.ring.2.1.trans first.ring.2.1, second.ring.2.2.trans first.ring.2.2⟩

/-- Setting the flag of an item. -/
theorem Relinked.flag (σ : Node) (a : Addr) (linked : Bool) : Relinked σ (σ.modify a fun it => { it with linked := linked }) a := by
  have other : ∀ x, x ≠ a → (σ.modify a fun it => { it with linked := linked }).table.items x = σ.table.items x :=
    fun x differ => Function.update_of_ne differ _ _
  have self : (σ.modify a fun it => { it with linked := linked }).table.items a = { σ.table.items a with linked := linked } :=
    Function.update_self _ _ _
  refine ⟨σ.table.setItem_name_same rfl, fun x => ?_, fun x => ?_, fun x differ => by rw [other x differ], rfl, rfl, rfl, rfl⟩
  · by_cases here : x = a
    · rw [here, self]
    · rw [other x here]
  · by_cases here : x = a
    · rw [here, self]
    · rw [other x here]

/-- The flags of an item are no link. -/
theorem Node.modify_link (σ : Node) (a : Addr) (linked : Bool) :
    (σ.modify a fun it => { it with linked := linked }).table.link = σ.table.link := σ.table.setItem_link_same rfl

/-- A bucket has an item of a key once, -/
theorem Tidy.same_name {t : Table} {b : Nat} {xs : List Addr} (tidy : Tidy hash t b xs) {x y : Addr} (first : x ∈ xs) (second : y ∈ xs)
    (same : t.name x = t.name y) : x = y := List.inj_on_of_nodup_map tidy.names first second same

/-- so that it is the one that is found. -/
theorem Tidy.find {t : Table} {b : Nat} {xs : List Addr} {name : Key} (tidy : Tidy hash t b xs) (member : a ∈ xs)
    (named : t.name a = name) : (xs.find? fun x => t.name x = name) = some a := by
  have hit : (xs.find? fun x => t.name x = name).isSome := List.find?_isSome.mpr ⟨a, member, by simpa using named⟩
  obtain ⟨x, found⟩ := Option.isSome_iff_exists.mp hit
  have same : t.name x = name := by simpa using List.find?_some found
  rw [found, tidy.same_name (List.mem_of_find?_eq_some found) member (same.trans named.symm)]

/-- **`do_item_unlink`** on an item of the table. -/
theorem Inv.unlink (inv : Inv hash σ chain q P) (idle : σ.Idle P) (settled : σ.Settled a) {fuel : Nat} {clock : Clock}
    (run : doItemUnlink X fuel σ a (σ.table.items a).hv clock = some σ') :
    (∃ chain' q', Inv hash σ' chain' q' P) ∧ σ'.Idle P ∧ ∀ x, σ.Settled x → σ'.Settled x := by
  simp only [doItemUnlink, Option.bind_eq_bind, Option.bind_eq_some_iff, Option.guard_eq_some'] at run
  obtain ⟨_, linked, ss, delete, free⟩ := run
  have out : σ.out a = true := settled.resolve_right (by rw [linked]; simp)
  have notHeld : a ∉ P := by
    intro held
    rw [idle a held] at linked
    cases linked
  obtain ⟨b, member⟩ := inv.in_chain out linked notHeld
  -- the flag is no part of what the table sees
  have flagged := Relinked.flag σ a false
  have links := σ.modify_link a false
  generalize τdef : (σ.modify a fun it => { it with linked := false }) = τ at delete free flagged links
  have tidyτ : Tidy hash τ.table b (chain b) := (inv.tidy b).frame flagged.name fun c _ => by rw [links]
  have home : bucketOf (σ.table.items a).hv = b := by
    rw [inv.hv b a member]
    exact (inv.tidy b).home a member
  simp only [assocDelete, Option.bind_eq_bind, Option.bind_eq_some_iff, Option.pure_def, Option.some.injEq] at delete
  obtain ⟨pos, before, _, _, o, found, rfl⟩ := delete
  rcases tidyτ.before home before with ⟨none, _⟩ | ⟨ys, o', zs, split, rfl, found', named, next⟩
  · rw [none] at found
    cases found
  obtain rfl := Option.some.inj (found.symm.trans found')
  have here : o = a := by
    refine tidyτ.same_name (by simp [split]) member ?_
    rw [named]
    rfl
  subst here
  rw [show (τ.table.items o).hNext = zs.head? from next] at free
  have relinked := flagged.trans (Relinked.store τ ⟨lastCell (.head b) ys, zs.head?⟩ o)
  have cell := (inv.tidy b).lastCell_home split
  rw [split] at tidyτ
  have unlinked : ((τ.table.store ⟨lastCell (.head b) ys, zs.head?⟩).items o).linked = false := by
    obtain ⟨p, after⟩ := τ.table.store_items ⟨lastCell (.head b) ys, zs.head?⟩ o
    rw [after, ← τdef]
    simp [Node.modify, Table.setItem]
  have moved := Inv.relink [] [o] inv relinked tidyτ.remove (fun b' differ c homeC => ?_) ?_ ?_ (by simp)
    (inv.not_queued member)
  · obtain ⟨⟨q', kept⟩, freed⟩ := moved.removeFree unlinked free
    refine ⟨⟨_, q', kept⟩, fun x held => ?_, fun x was => freed.settled x ?_⟩
    · have differ : x ≠ o := by
        rintro rfl
        exact notHeld held
      exact (freed.linked x).trans ((relinked.linked x differ).trans (idle x held))
    by_cases this : x = o
    · rw [this]
      exact Or.inr unlinked
    · rcases was with out | quiet
      · exact Or.inl (by rw [relinked.out]; exact out)
      · exact Or.inr (by rw [relinked.linked x this]; exact quiet)
  · show (τ.table.store _).link c = σ.table.link c
    rw [τ.table.store_link, Function.update_of_ne, links]
    rintro rfl
    exact differ (homeC.symm.trans cell)
  · rw [List.nil_append, split]
    simp only [List.append_assoc]
    exact List.perm_append_comm.append_left ys |>.trans (by simp)
  · exact fun _ _ => List.mem_singleton.mpr rfl

/-! ## Eviction -/

/-- The loop over a slab's items moves each that is linked from its bucket to the ring. -/
theorem Inv.evictLoop (inv : Inv hash σ chain q P) (idle : σ.Idle P) {fuel i : Nat} {clock : Nat → Clock} {rest : List Addr}
    (settled : ∀ x ∈ rest, σ.Settled x) (run : slabEvictLoop X fuel clock i rest σ = some σ') :
    ∃ chain' q', Inv hash σ' chain' q' P ∧ σ'.Idle P := by
  induction rest generalizing σ chain q i with
  | nil =>
    obtain rfl := Option.some.inj run
    exact ⟨chain, q, inv, idle⟩
  | cons a rest ih =>
    rw [slabEvictLoop] at run
    split_ifs at run with free node
    · exact ih inv idle (fun x member => settled x (List.mem_cons_of_mem a member)) run
    · simp only [Option.bind_eq_bind, Option.bind_eq_some_iff] at run
      obtain ⟨σ₁, unlink, run⟩ := run
      obtain ⟨⟨chain₁, q₁, inv₁⟩, idle₁, keeps⟩ := inv.unlink idle (settled a List.mem_cons_self) unlink
      exact ih inv₁ idle₁ (fun x member => keeps x (settled x (List.mem_cons_of_mem a member))) run

/-- **`slab_evict`** takes the items of a slab out of the table. -/
theorem Inv.evict (inv : Inv hash σ chain q P) (idle : σ.Idle P) {fuel s : Nat} {clock : Nat → Clock}
    (run : slabEvict X fuel clock σ s = some σ') : ∃ chain' q', Inv hash σ' chain' q' P ∧ σ'.Idle P := by
  simp only [slabEvict, Option.bind_eq_bind, Option.bind_eq_some_iff, Option.guard_eq_some'] at run
  obtain ⟨_, _, _, full, run⟩ := run
  refine inv.evictLoop idle (fun x member => Or.inl ?_) run
  -- all objects of the slab are handed out
  have none := List.countP_eq_zero.mp full x member
  simpa using none

/-- The loop over slabs does so slab by slab, -/
theorem Inv.memEvictLoop (inv : Inv hash σ chain q P) (idle : σ.Idle P) {fuel npages i i' : Nat} {clock : Nat → Nat → Clock}
    {slabs : List Nat} (run : mcMemEvictLoop X fuel clock npages i slabs σ = some (i', σ')) :
    ∃ chain' q', Inv hash σ' chain' q' P ∧ σ'.Idle P := by
  induction slabs generalizing σ chain q i with
  | nil =>
    obtain ⟨_, rfl⟩ := Prod.mk.inj (Option.some.inj run)
    exact ⟨chain, q, inv, idle⟩
  | cons s rest ih =>
    rw [mcMemEvictLoop] at run
    split_ifs at run with more
    · simp only [Option.bind_eq_bind, Option.bind_eq_some_iff] at run
      obtain ⟨σ₁, evict, run⟩ := run
      obtain ⟨chain₁, q₁, inv₁, idle₁⟩ := inv.evict idle evict
      exact ih inv₁ idle₁ run
    · obtain ⟨_, rfl⟩ := Prod.mk.inj (Option.some.inj run)
      exact ⟨chain, q, inv, idle⟩

/-- and so does an eviction. -/
theorem Inv.memEvict (inv : Inv hash σ chain q P) (idle : σ.Idle P) {fuel npages : Nat} {clock : Nat → Nat → Clock}
    {el fl : List Nat} (run : mcMemEvict X fuel clock npages el fl σ = some σ') : ∃ chain' q', Inv hash σ' chain' q' P ∧ σ'.Idle P := by
  simp only [mcMemEvict, Option.bind_eq_bind, Option.bind_eq_some_iff, Option.pure_def, Option.some.injEq, Prod.exists] at run
  obtain ⟨i, σ₁, first, j, σ₂, second, rfl⟩ := run
  obtain ⟨chain₁, q₁, inv₁, idle₁⟩ := inv.memEvictLoop idle first
  exact inv₁.memEvictLoop idle₁ second

/-- What `mc_alloc_pages` does, one after the other: it may reclaim, it may evict, and unless the node is full while
it loads it takes pages. -/
theorem mcAllocPages_cases {fuel now : Nat} {clock : Nat → Nat → Clock} {el fl : List Nat} {s : Option Nat}
    (run : mcAllocPages X fuel now clock el fl σ = some (s, σ')) :
    ∃ σ₁, BiMc.reclaimIf X σ.full σ now = some σ₁ ∧ ((s = none ∧ σ' = σ₁) ∨
      ∃ σ₂, (σ₂ = σ₁ ∨ mcMemEvict X fuel clock 1 el fl σ₁ = some σ₂) ∧ (s, σ') = takePages X σ₂) := by
  simp only [mcAllocPages, Option.bind_eq_bind, Option.bind_eq_some_iff] at run
  obtain ⟨σ₁, reclaim, run⟩ := run
  refine ⟨σ₁, reclaim, ?_⟩
  split_ifs at run with stop full
  · obtain ⟨rfl, rfl⟩ := Prod.mk.inj (Option.some.inj run)
    exact Or.inl ⟨rfl, rfl⟩
  · simp only [Option.bind_eq_some_iff] at run
    obtain ⟨σ₂, evict, run⟩ := run
    exact Or.inr ⟨σ₂, Or.inr evict, (Option.some.inj run).symm⟩
  · simp only [Option.bind_eq_some_iff] at run
    obtain ⟨σ₂, same, run⟩ := run
    exact Or.inr ⟨σ₂, Or.inl (Option.some.inj same).symm, (Option.some.inj run).symm⟩

/-- What `takePages` does to the node. -/
theorem takePages_cases {s : Option Nat} (run : (s, σ') = takePages X σ) :
    (s = none ∧ σ' = σ) ∨ ∃ off, s = some off ∧ X.extentFind σ.map X.slabPages = some off ∧ σ' = { σ with
      map := bitmapSetContig σ.map off X.slabPages false
      alloc := σ.alloc + 1, used := (σ.used + X.fragmentation) % u64 } := by
  unfold takePages at run
  split at run
  case h_1 off found =>
    obtain ⟨rfl, rfl⟩ := Prod.mk.inj run
    exact Or.inr ⟨off, rfl, found, rfl⟩
  case h_2 =>
    obtain ⟨rfl, rfl⟩ := Prod.mk.inj run
    exact Or.inl ⟨rfl, rfl⟩

/-- Getting pages may evict, but no more than that. -/
theorem Inv.allocPages (inv : Inv hash σ chain q P) (idle : σ.Idle P) {fuel now : Nat} {clock : Nat → Nat → Clock}
    {el fl : List Nat} {s : Option Nat} (run : mcAllocPages X fuel now clock el fl σ = some (s, σ')) :
    ∃ chain' q', Inv hash σ' chain' q' P ∧ σ'.Idle P := by
  obtain ⟨σ₁, reclaim, stops | ⟨σ₂, evict, take⟩⟩ := mcAllocPages_cases run
  · obtain ⟨q₁, inv₁, table, _⟩ := inv.reclaimIf reclaim
    obtain ⟨_, rfl⟩ := stops
    exact ⟨chain, q₁, inv₁, fun x held => by rw [table]; exact idle x held⟩
  · obtain ⟨q₁, inv₁, table, _⟩ := inv.reclaimIf reclaim
    have idle₁ : σ₁.Idle P := fun x held => by rw [table]; exact idle x held
    obtain ⟨chain₂, q₂, inv₂, idle₂⟩ : ∃ chain' q', Inv hash σ₂ chain' q' P ∧ σ₂.Idle P := by
      rcases evict with rfl | evict
      · exact ⟨chain, q₁, inv₁, idle₁⟩
      · exact inv₁.memEvict idle₁ evict
    rcases takePages_cases take with ⟨_, rfl⟩ | ⟨off, _, _, rfl⟩
    · exact ⟨chain₂, q₂, inv₂, idle₂⟩
    · exact ⟨chain₂, q₂, inv₂.withStatus _ _ _ _ _ _, idle₂⟩

/-! ## Setting a key -/

/-- An object that is not handed out is in no chain and not on the ring. -/
theorem Inv.handOut (inv : Inv hash σ chain q P) (it : Item) (free : σ.out a = false) :
    Inv hash { σ with
      table := σ.table.setItem a it, out := Function.update σ.out a true, tscFree := Function.update σ.tscFree a slabInUse }
      chain q (a :: P) := by
  have differ : ∀ {x : Addr}, σ.out x = true → x ≠ a := by
    rintro x out rfl
    rw [free] at out
    cases out
  have absent : ∀ b, a ∉ chain b := fun b member => differ (inv.chained b a member).1 rfl
  have changed := inv.modify (fun _ => it) absent fun queued => absurd rfl (differ (inv.queued a queued).1)
  have still : ∀ {x : Addr}, σ.out x = true → Function.update σ.out a true x = true := fun {x} out => by
    rwa [Function.update_of_ne (differ out)]
  refine ⟨changed.tidy, changed.hv, fun b x member => ?_, changed.ring, ?_, fun x member => ?_, fun x member => ?_, fun x out => ?_⟩
  · exact ⟨still (inv.chained b x member).1, (changed.chained b x member).2⟩
  · rw [List.nodup_middle, List.nodup_cons]
    refine ⟨fun member => ?_, inv.nodup⟩
    rcases List.mem_append.mp member with queued | held
    · exact differ (inv.queued a queued).1 rfl
    · exact differ (inv.held a held).1 rfl
  · exact ⟨still (inv.queued x member).1, (changed.queued x member).2⟩
  · rcases List.mem_cons.mp member with rfl | held
    · exact ⟨Function.update_self _ _ _, absent⟩
    · exact ⟨still (inv.held x held).1, (inv.held x held).2⟩
  · by_cases here : x = a
    · exact Or.inr (by simp [here])
    · have was : σ.out x = true := (Function.update_of_ne here _ _).symm.trans out
      rcases inv.all x was with inside | other
      · exact Or.inl inside
      · refine Or.inr ?_
        rw [List.perm_middle.mem_iff]
        exact List.mem_cons_of_mem a other

/-- **The allocator** may evict and reclaim; the object it returns is in the hands of the call. -/
theorem Inv.slabAlloc {r : Option Addr} (run : SlabAlloc X σ r σ') (inv : Inv hash σ chain q P) (idle : σ.Idle P) :
    ∃ chain' q', Inv hash σ' chain' q' (r.toList ++ P) ∧ σ'.Idle P := by
  induction run generalizing chain q with
  | pages refill _ ih =>
    obtain ⟨chain₁, q₁, inv₁, idle₁⟩ := inv.allocPages idle refill
    exact ih inv₁ idle₁
  | @object σ a it free =>
    refine ⟨chain, q, inv.handOut it free, fun x held => ?_⟩
    have differ : x ≠ a := by
      rintro rfl
      rw [(inv.held x held).1] at free
      cases free
    change (Function.update σ.table.items a it x).linked = false
    rw [Function.update_of_ne differ]
    exact idle x held
  | none => exact ⟨chain, q, inv, idle⟩

/-- What a new item holds before it is linked. -/
structure Node.Filled (σ : Node) (a : Addr) (key : List UInt8) (nkey : Nat) : Prop where
  name : σ.table.name a = (nkey, key.take nkey)
  unlinked : (σ.table.items a).linked = false

/-- Filling an item concerns nobody else. -/
theorem Inv.fill (inv : Inv hash σ chain q (a :: P)) (idle : σ.Idle P) {key : List UInt8} {nkey flags nbytes : Nat}
    (run : fillItem σ a key nkey flags nbytes = some σ') :
    Inv hash σ' chain q (a :: P) ∧ σ'.Idle (a :: P) ∧ σ'.Filled a key nkey := by
  simp only [fillItem, Option.bind_eq_bind, Option.bind_eq_some_iff, Option.pure_def, Option.some.injEq] at run
  obtain ⟨_, _, rfl⟩ := run
  have notQueued : a ∉ q := fun queued => (List.nodup_append'.mp inv.nodup).2.2 queued List.mem_cons_self
  refine ⟨inv.modify _ (inv.held a List.mem_cons_self).2 fun queued => absurd queued notQueued, fun x held => ?_, ?_, ?_⟩
  · by_cases here : x = a
    · simp [here, Node.modify, Table.setItem]
    · simp only [Node.modify, Table.setItem, Function.update_of_ne here]
      exact idle x ((List.mem_cons.mp held).resolve_left here)
  · rw [Node.modify, Table.setItem_name_self, Item.name, List.take_take, Nat.min_self]
  · simp [Node.modify, Table.setItem]

/-- An item that is allocated was not in use. -/
theorem Inv.memAlloc (inv : Inv hash σ chain q P) (idle : σ.Idle P) {size : Nat} {r : Option Addr}
    (run : ParsecMemAlloc X σ size r σ') : ∃ chain' q', Inv hash σ' chain' q' (r.toList ++ P) ∧ σ'.Idle P :=
  Inv.slabAlloc run.2 (inv.withStatus _ _ _ _ _ _) idle

/-- **`do_item_alloc`**. -/
theorem Inv.itemAlloc (inv : Inv hash σ chain q P) (idle : σ.Idle P) {key : List UInt8} {nkey flags nbytes : Nat} {r : Option Addr}
    (run : DoItemAlloc X σ key nkey flags nbytes r σ') :
    ∃ chain' q', Inv hash σ' chain' q' (r.toList ++ P) ∧ σ'.Idle (r.toList ++ P) ∧ ∀ a ∈ r, σ'.Filled a key nkey := by
  have filled : ∀ {a : Addr} {σ₁ : Node} {chain₁ : Nat → List Addr} {q₁ : List Addr}, Inv hash σ₁ chain₁ q₁ (a :: P) →
      σ₁.Idle P → fillItem σ₁ a key nkey flags nbytes = some σ' →
      ∃ chain' q', Inv hash σ' chain' q' ((some a).toList ++ P) ∧ σ'.Idle ((some a).toList ++ P) ∧ ∀ x ∈ some a, σ'.Filled x key nkey := by
    intro a σ₁ chain₁ q₁ inv₁ idle₁ fill
    obtain ⟨kept, idle', filled⟩ := inv₁.fill idle₁ fill
    refine ⟨chain₁, q₁, kept, idle', fun x same => ?_⟩
    obtain rfl := Option.some.inj same
    exact filled
  cases run with
  | first alloc fill =>
    obtain ⟨chain₁, q₁, inv₁, idle₁⟩ := inv.memAlloc idle alloc
    exact filled inv₁ idle₁ fill
  | second alloc again fill =>
    obtain ⟨chain₁, q₁, inv₁, idle₁⟩ := inv.memAlloc idle alloc
    obtain ⟨chain₂, q₂, inv₂, idle₂⟩ := inv₁.memAlloc idle₁ again
    exact filled inv₂ idle₂ fill
  | fails alloc again =>
    obtain ⟨chain₁, q₁, inv₁, idle₁⟩ := inv.memAlloc idle alloc
    obtain ⟨chain₂, q₂, inv₂, idle₂⟩ := inv₁.memAlloc idle₁ again
    exact ⟨chain₂, q₂, inv₂, idle₂, by simp⟩

/-- **An item is linked in** between `ys` and `zs`, in the place of the items `ms`, by its flag and two stores. -/
theorem Inv.linkIn {b : Nat} {ys ms zs : List Addr} (inv : Inv hash σ chain q (a :: P)) (split : chain b = ys ++ (ms ++ zs))
    (enters : Enters hash ∅ σ.table b ys ms zs a) (hv : (σ.table.items a).hv = hash (σ.table.name a)) {τ : Node}
    (flagged : τ = σ.modify a fun it => { it with linked := true })
    (stored : σ' = { τ with table := τ.table.storeAll [⟨.next a, zs.head?⟩, ⟨lastCell (.head b) ys, some a⟩] }) :
    Inv hash σ' (Function.update chain b (ys ++ a :: zs)) q (ms ++ P) ∧ Relinked σ σ' a := by
  have flag : Relinked σ τ a := flagged ▸ Relinked.flag σ a true
  have links : τ.table.link = σ.table.link := flagged ▸ σ.modify_link a true
  let τ₁ : Node := { τ with table := τ.table.store ⟨.next a, zs.head?⟩ }
  have after : σ' = { τ₁ with table := τ₁.table.store ⟨lastCell (.head b) ys, some a⟩ } := stored
  have same : Relinked σ σ' a := after ▸ (flag.trans (Relinked.store τ _ a)).trans (Relinked.store τ₁ _ a)
  have absent : a ∉ chain b := (inv.held a List.mem_cons_self).2 b
  have notQueued : a ∉ q := fun queued => (List.nodup_append'.mp inv.nodup).2.2 queued List.mem_cons_self
  -- the two stores, one after the other
  have tidy : Tidy hash τ.table b (chain b) := (inv.tidy b).frame flag.name fun c _ => by rw [links]
  have prepared : Tidy hash τ₁.table b (ys ++ (ms ++ zs)) := split ▸ tidy.prepare absent zs.head?
  have names : τ₁.table.name = σ.table.name := (τ.table.store_name ⟨.next a, zs.head?⟩).trans flag.name
  have ready : τ₁.table.link (.next a) = zs.head? := by
    rw [show τ₁.table.link = _ from τ.table.store_link ⟨.next a, zs.head?⟩]
    exact Function.update_self _ _ _
  have entered := prepared.enter (enters.frame names) ready
  have linked : (σ'.table.items a).linked = true := by
    obtain ⟨p₁, first⟩ := τ.table.store_items ⟨.next a, zs.head?⟩ a
    obtain ⟨p₂, second⟩ := τ₁.table.store_items ⟨lastCell (.head b) ys, some a⟩ a
    rw [after, second, show τ₁.table.items a = { τ.table.items a with hNext := p₁ } from first, flagged]
    simp [Node.modify, Table.setItem]
  refine ⟨?_, same⟩
  refine Inv.relink [a] ms inv same (after ▸ entered) (fun b' differ c homeC => ?_)
    ?_ (fun b' member => absurd member ((inv.held a List.mem_cons_self).2 b')) (fun x member => ?_) notQueued
  · have cell := (inv.tidy b).lastCell_home split
    rw [after, τ₁.table.store_link, Function.update_of_ne, τ.table.store_link, Function.update_of_ne, links]
    · rintro rfl
      exact differ (homeC.symm.trans enters.home)
    · rintro rfl
      exact differ (homeC.symm.trans cell)
  · rw [split]
    simp only [List.append_assoc, List.cons_append, List.nil_append]
    refine List.perm_middle.trans (List.Perm.cons a ?_)
    exact List.Perm.append_left ys List.perm_append_comm
  · rw [List.mem_singleton.mp member, same.hv, same.name]
    exact ⟨linked, hv⟩

/-- What `mc_set_key_rcv` leaves of the item it set: it is in its chain, with the key and the data. -/
structure Node.Found (σ : Node) (chain : Nat → List Addr) (a : Addr) (name : Key) (hv : Nat) (data : List UInt8) : Prop where
  chained : a ∈ chain (bucketOf hv)
  name : σ.table.name a = name
  data : (σ.table.items a).data = data

/-- An item of the new key is linked in where the key has none. -/
theorem Inv.linkNew (inv : Inv hash σ chain q (a :: P)) {key : List UInt8} {nkey hv : Nat}
    (name : σ.table.name a = (nkey, key.take nkey)) (hvOf : (σ.table.items a).hv = hash (σ.table.name a))
    (home : σ.table.home hash a = bucketOf hv) (unused : ∀ x ∈ chain (bucketOf hv), σ.table.name x ≠ (nkey, key.take nkey))
    (run : doItemLink X σ a hv = some σ') :
    Inv hash σ' (Function.update chain (bucketOf hv) (a :: chain (bucketOf hv))) q P ∧ Relinked σ σ' a := by
  have absent : a ∉ chain (bucketOf hv) := (inv.held a List.mem_cons_self).2 _
  have tidy := inv.tidy (bucketOf hv)
  have enters : Enters hash ∅ σ.table (bucketOf hv) [] [] (chain (bucketOf hv)) a := by
    refine ⟨Set.notMem_empty a, absent, home, by simp, ?_⟩
    rw [List.nil_append, List.map_cons, List.nodup_cons, name]
    refine ⟨fun member => ?_, tidy.names⟩
    obtain ⟨x, inside, same⟩ := List.mem_map.mp member
    exact unused x inside same
  simp only [doItemLink, assocInsert, Option.bind_eq_bind, Option.bind_eq_some_iff, Option.pure_def, Option.some.injEq] at run
  obtain ⟨_, _, ss, ⟨_, _, rfl⟩, rfl⟩ := run
  have head : (σ.modify a fun it => { it with linked := true }).table.heads (bucketOf hv) = (chain (bucketOf hv)).head? :=
    tidy.path.link_eq
  rw [head]
  exact inv.linkIn (show chain (bucketOf hv) = [] ++ ([] ++ chain (bucketOf hv)) from rfl) enters hvOf rfl rfl

/-- An item takes the place of the item of its key, which goes to the ring. -/
theorem Inv.replaceOld (inv : Inv hash σ chain q (a :: P)) {key : List UInt8} {nkey hv fuel : Nat} {clock : Clock} {old : Addr}
    (name : σ.table.name a = (nkey, key.take nkey)) (hvOf : (σ.table.items a).hv = hash (σ.table.name a))
    (home : σ.table.home hash a = bucketOf hv) (inside : old ∈ chain (bucketOf hv)) (oldName : σ.table.name old = (nkey, key.take nkey))
    (run : doItemReplace X fuel σ old a hv clock = some σ') :
    ∃ chain' q' τ, a ∈ chain' (bucketOf hv) ∧ Inv hash σ' chain' q' P ∧ Relinked σ τ a ∧
      Freed (τ.modify old fun it => { it with linked := false }) σ' := by
  have absent : a ∉ chain (bucketOf hv) := (inv.held a List.mem_cons_self).2 _
  have tidy := inv.tidy (bucketOf hv)
  simp only [doItemReplace, assocReplace, Option.bind_eq_bind, Option.bind_eq_some_iff] at run
  obtain ⟨_, _, _, _, ss, ⟨pos, before, stores⟩, free⟩ := run
  have flag := Relinked.flag σ a true
  have links := σ.modify_link a true
  have tidy' : Tidy hash (σ.modify a fun it => { it with linked := true }).table (bucketOf hv) (chain (bucketOf hv)) :=
    tidy.frame flag.name fun c _ => by rw [links]
  rcases tidy'.before rfl before with ⟨_, none⟩ | ⟨ys, o, zs, split, rfl, found, named, next⟩
  · exact absurd rfl (none old inside)
  have here : o = old := tidy'.same_name (by simp [split]) inside named
  subst here
  rw [found] at stores
  obtain rfl := Option.some.inj stores
  have enters : Enters hash ∅ σ.table (bucketOf hv) ys [o] zs a := by
    refine ⟨Set.notMem_empty a, split ▸ absent, home, ?_, ?_⟩
    · simp [oldName, name]
    · have names := tidy.names
      rw [split, List.map_append, List.map_cons] at names
      rw [List.map_append, List.map_cons, name, ← oldName]
      exact names
  rw [show ((σ.modify a fun it => { it with linked := true }).table.items o).hNext = zs.head? from next] at free
  obtain ⟨kept, same⟩ := inv.linkIn split enters hvOf rfl rfl
  have quiet := kept.modify (a := o) (fun it => { it with linked := false }) (kept.held o List.mem_cons_self).2 fun _ => rfl
  obtain ⟨⟨q', final⟩, freed⟩ := quiet.removeFree (by simp [Node.modify, Table.setItem]) free
  exact ⟨_, q', _, by simp, final, same, freed⟩

/-- **`mc_set_key_rcv`** with its item: the item replaces the one of the same key, if there is one. -/
theorem Inv.setItem (inv : Inv hash σ chain q (a :: P)) (idle : σ.Idle (a :: P)) {key data : List UInt8} {nkey nbytes hv fuel : Nat}
    {clock : Clock} (filled : σ.Filled a key nkey) (hashed : hv = hash (nkey, key.take nkey))
    (run : mcSetItem X fuel σ a key nkey data nbytes hv clock = some σ') :
    ∃ chain' q', Inv hash σ' chain' q' P ∧ σ'.Idle P ∧ σ'.Found chain' a (nkey, key.take nkey) hv (data.take nbytes) := by
  simp only [mcSetItem, Option.bind_eq_bind, Option.bind_eq_some_iff] at run
  obtain ⟨found, find, run⟩ := run
  have parts := List.nodup_append'.mp inv.nodup
  have notQueued : a ∉ q := fun queued => parts.2.2 queued List.mem_cons_self
  have notHeld : ∀ x ∈ P, x ≠ a := by
    rintro x held rfl
    exact (List.nodup_cons.mp parts.2.1).1 held
  have inv₁ := inv.modify (fun i => { i with data := data.take nbytes, hv := hv }) (inv.held a List.mem_cons_self).2
    fun queued => absurd queued notQueued
  have self : (σ.modify a fun i => { i with data := data.take nbytes, hv := hv }).table.items a =
      { σ.table.items a with data := data.take nbytes, hv := hv } := Function.update_self _ _ _
  have idle₁ : (σ.modify a fun i => { i with data := data.take nbytes, hv := hv }).Idle P := by
    intro x held
    simp only [Node.modify, Table.setItem, Function.update_of_ne (notHeld x held)]
    exact idle x (List.mem_cons_of_mem a held)
  generalize (σ.modify a fun i => { i with data := data.take nbytes, hv := hv }) = τ at find run inv₁ self idle₁
  have name : τ.table.name a = (nkey, key.take nkey) := by
    rw [Table.name, self]
    exact filled.name
  have hvOf : (τ.table.items a).hv = hash (τ.table.name a) := by
    rw [name, self, hashed]
  have dataOf : (τ.table.items a).data = data.take nbytes := by rw [self]
  have home : τ.table.home hash a = bucketOf hv := by
    rw [Table.home, name, hashed]
  have result := assocFindLoop_some (c := .head (bucketOf hv)) (inv₁.tidy (bucketOf hv)).path find
  cases found with
  | none =>
    have unused : ∀ x ∈ chain (bucketOf hv), τ.table.name x ≠ (nkey, key.take nkey) := by
      simpa using List.find?_eq_none.mp result.symm
    obtain ⟨kept, same⟩ := inv₁.linkNew name hvOf home unused run
    refine ⟨_, _, kept, fun x held => ?_, ?_, ?_, ?_⟩
    · exact (same.linked x (notHeld x held)).trans (idle₁ x held)
    · simp
    · exact (congrFun same.name a).trans name
    · exact (same.data a).trans dataOf
  | some old =>
    have oldName : τ.table.name old = (nkey, key.take nkey) := by simpa using List.find?_some result.symm
    have inside : old ∈ chain (bucketOf hv) := List.mem_of_find?_eq_some result.symm
    obtain ⟨chain', q', υ, entered, final, same, freed⟩ := inv₁.replaceOld name hvOf home inside oldName run
    have off := Relinked.flag υ old false
    refine ⟨chain', q', final, fun x held => ?_, entered, ?_, ?_⟩
    · have differ : x ≠ old := by
        rintro rfl
        exact (inv₁.held x (List.mem_cons_of_mem a held)).2 _ inside
      exact (freed.linked x).trans ((off.linked x differ).trans ((same.linked x (notHeld x held)).trans (idle₁ x held)))
    · exact (congrFun (freed.name.trans (off.name.trans same.name)) a).trans name
    · exact (freed.data a).trans ((off.data a).trans ((same.data a).trans dataOf))

/-- **`mc_set_key_rcv`**, with everything its allocation does. -/
theorem Inv.setKey (inv : Inv hash σ chain q P) (idle : σ.Idle P) {key data : List UInt8} {nkey nbytes : Nat} {r : Option Addr}
    (run : McSetKeyRcv X σ key nkey data nbytes (hash (nkey, key.take nkey)) r σ') :
    ∃ chain' q', Inv hash σ' chain' q' P ∧ σ'.Idle P ∧
      ∀ a ∈ r, σ'.Found chain' a (nkey, key.take nkey) (hash (nkey, key.take nkey)) (data.take nbytes) := by
  cases run with
  | ok alloc set =>
    obtain ⟨chain₁, q₁, inv₁, idle₁, filled⟩ := inv.itemAlloc idle alloc
    obtain ⟨chain₂, q₂, inv₂, idle₂, found⟩ := inv₁.setItem idle₁ (filled _ rfl) rfl set
    refine ⟨chain₂, q₂, inv₂, idle₂, fun x same => ?_⟩
    obtain rfl := Option.some.inj same
    exact found
  | error alloc =>
    obtain ⟨chain₁, q₁, inv₁, idle₁, _⟩ := inv.itemAlloc idle alloc
    exact ⟨chain₁, q₁, inv₁, idle₁, by simp⟩

/-! ## Runs -/

/-- The invariant holds at the start. -/
theorem Inv.init (items : Addr → Item) (tscFree : Addr → Nat) (used target : Nat) (map : Nat → Bool) (loading : Bool) :
    Inv hash ⟨⟨fun _ => none, items⟩, tscFree, fun _ => none, 0, 0, fun _ => false, used, 0, 0, 0, target, map, loading⟩
      (fun _ => []) [] [] := by
  refine ⟨fun b => ⟨rfl, by simp, List.nodup_nil⟩, by simp, by simp, ?_, List.nodup_nil, by simp, by simp, by simp⟩
  have room : 0 < quisNum := by decide
  refine ⟨room, room, contents_self _ _ _, fun i _ => ?_⟩
  rw [contents_self]
  simp

/-- A key is as long as the code takes it to be. -/
theorem key_take {key : List UInt8} (keyLen : key.length = keyLength) : key.take keyLength = key :=
  List.take_of_length_le keyLen.le

/-- Each step keeps the invariant, -/
theorem Inv.step (inv : Inv hash σ chain q []) (next : NodeStep X hash σ σ') : ∃ chain' q', Inv hash σ' chain' q' [] := by
  have idle : σ.Idle [] := by simp [Node.Idle]
  cases next with
  | @set key _ _ _ keyLen _ _ run =>
    rw [show (keyLength, key) = (keyLength, key.take keyLength) by rw [key_take keyLen]] at run
    obtain ⟨chain', q', inv', _⟩ := inv.setKey idle run
    exact ⟨chain', q', inv'⟩
  | evict run =>
    obtain ⟨chain', q', inv', _⟩ := inv.evict idle run
    exact ⟨chain', q', inv'⟩
  | reclaim run =>
    obtain ⟨freed, q', _, _, inv'⟩ := inv.reclaim run
    exact ⟨chain, q', inv'⟩
  | loaded => exact ⟨chain, q, inv.withStatus _ _ _ _ _ _⟩

/-- and so it holds throughout. -/
theorem NodeRun.inv (run : NodeRun X hash σ) : ∃ chain q, Inv hash σ chain q [] := by
  induction run with
  | init items tscFree used target map loading => exact ⟨_, _, Inv.init items tscFree used target map loading⟩
  | step _ next ih =>
    obtain ⟨chain, q, inv⟩ := ih
    exact inv.step next

/-- An item waits on the ring. -/
def Node.Queued (σ : Node) (a : Addr) : Prop := ∃ i < quisNum, σ.ring i = some a

/-- What waits is what is on the ring, -/
theorem queued_iff (ring : Holds quisNum σ.ring σ.head σ.tail q) : σ.Queued a ↔ a ∈ q := by
  have entries := ring.entries
  constructor
  · rintro ⟨i, bound, here⟩
    have inside := (ring.marks i bound).mp (by rw [here]; simp)
    obtain ⟨k, small, rfl⟩ := List.mem_map.mp inside
    have member : some a ∈ contents quisNum σ.ring σ.head σ.tail := List.mem_map.mpr ⟨k, small, here⟩
    rw [entries] at member
    simpa using member
  · intro member
    have inside : some a ∈ contents quisNum σ.ring σ.head σ.tail := by
      rw [entries]
      exact List.mem_map_of_mem member
    obtain ⟨k, _, here⟩ := List.mem_map.mp inside
    exact ⟨(σ.head + k) % quisNum, Nat.mod_lt _ (by decide), here⟩

/-- in every state, -/
theorem Inv.queued_iff (inv : Inv hash σ chain q P) : σ.Queued a ↔ a ∈ q := BiMc.queued_iff inv.ring

/-- and what is in a bucket is in its chain. -/
theorem Inv.inBucket_iff (inv : Inv hash σ chain q P) (b : Nat) : σ.table.InBucket b a ↔ a ∈ chain b := (inv.tidy b).inBucket

/-- A chain of the table as the functions expect it. -/
structure Node.GoodBucket (σ : Node) (b : Nat) (xs : List Addr) : Prop where
  path : Path σ.table.link (.head b) xs
  here : ∀ a ∈ xs, bucketOf (σ.table.items a).hv = b
  keys : (xs.map σ.table.name).Nodup

/-- What `mem_smr_reclaim` gives to the allocator: objects that are handed out and out of reach, each once. -/
structure Returned (X : Ext) (σ σ' : Node) (bytes : Nat) (freed : List Addr) : Prop where
  once : freed.Nodup
  bytes : bytes = freed.length * X.objTotSz
  out : ∀ a, σ'.out a = true ↔ σ.out a = true ∧ a ∉ freed
  retired : ∀ a ∈ freed, σ.out a = true ∧ (∀ b, ¬ σ.table.InBucket b a) ∧ σ.Queued a ∧ ¬ σ'.Queued a

/-- **No item that is retired is reachable from the table**, between the calls of any run. -/
theorem retired_unreachable (run : NodeRun X hash σ) :
    (∀ b, ∃ xs, σ.GoodBucket b xs) ∧
    (∀ a, σ.out a = true → ((∃ b, σ.table.InBucket b a) ↔ (σ.table.items a).linked = true) ∧
      ((σ.table.items a).linked = true ↔ ¬ σ.Queued a)) ∧
    (∀ i < quisNum, σ.ring i ≠ none ↔ i ∈ contents quisNum id σ.head σ.tail) ∧
    (∀ now bytes σ', memSmrReclaim X σ now = some (bytes, σ') → ∃ freed, Returned X σ σ' bytes freed) ∧
    (∀ key data a σ', key.length = keyLength → data.length = vLength →
      McSetKeyRcv X σ key keyLength data vLength (hash (keyLength, key)) (some a) σ' →
      ∃ enough, ∀ fuel ≥ enough, assocFind fuel σ'.table key keyLength (hash (keyLength, key)) = some (some a) ∧
        σ'.table.name a = (keyLength, key) ∧ (σ'.table.items a).data = data) := by
  obtain ⟨chain, q, inv⟩ := run.inv
  refine ⟨fun b => ⟨chain b, (inv.tidy b).path, fun a member => ?_, (inv.tidy b).names⟩, fun a out => ?_, inv.ring.marks,
    fun now bytes σ' reclaim => ?_, fun key data a σ' keyLen dataLen set => ?_⟩
  · rw [inv.hv b a member]
    exact (inv.tidy b).home a member
  · have linkedIff : (∃ b, σ.table.InBucket b a) ↔ (σ.table.items a).linked = true := by
      simp only [inv.inBucket_iff]
      exact ⟨fun ⟨b, member⟩ => (inv.chained b a member).2, fun linked => inv.in_chain out linked List.not_mem_nil⟩
    refine ⟨linkedIff, ?_⟩
    rw [inv.queued_iff]
    constructor
    · intro linked queued
      rw [(inv.queued a queued).2] at linked
      cases linked
    · intro free
      rcases inv.all a out with ⟨b, member⟩ | queued
      · exact (inv.chained b a member).2
      · exact absurd (by simpa using queued) free
  · obtain ⟨freed, q', reclaimed, total, inv'⟩ := inv.reclaim reclaim
    have parts : (freed ++ q').Nodup := by
      have all := inv.nodup
      rw [List.append_nil, reclaimed.split] at all
      exact all
    refine ⟨freed, (List.nodup_append'.mp parts).1, total, reclaimed.out, fun a member => ?_⟩
    have queued : a ∈ q := by simp [reclaimed.split, member]
    refine ⟨(inv.queued a queued).1, fun b inside => ?_, inv.queued_iff.mpr queued, fun still => ?_⟩
    · exact inv.not_queued ((inv.inBucket_iff b).mp inside) queued
    · exact (List.nodup_append'.mp parts).2.2 member (inv'.queued_iff.mp still)
  · have whole : key.take keyLength = key := key_take keyLen
    rw [show (keyLength, key) = (keyLength, key.take keyLength) by rw [whole]] at set ⊢
    obtain ⟨chain', q', inv', _, found⟩ := inv.setKey (by simp [Node.Idle]) set
    have here := found a rfl
    refine ⟨(chain' (bucketOf (hash (keyLength, key.take keyLength)))).length + 1, fun fuel enough => ⟨?_, here.name, ?_⟩⟩
    · have tidy := inv'.tidy (bucketOf (hash (keyLength, key.take keyLength)))
      refine (assocFindLoop_path tidy.path (by omega)).trans (congrArg some ?_)
      exact tidy.find here.chained here.name
    · rw [here.data, List.take_of_length_le dataLen.le]

end

/-- The first `n` pages in a row that a bitmap of `size` pages has. -/
def firstExtent (size : Nat) (map : Nat → Bool) (n : Nat) : Option Nat :=
  (List.range size).find? fun off => (List.range n).all fun i => map (off + i)

/-- The pages that `MAP_MAX` words have a bit for. -/
def mapPages : Nat := 163840

/-- Two servers and two clients; a slab of four pages has 145 objects of 112 bytes, given out from its beginning, and
goes back when none of them is out. -/
def itemExt : Ext where
  numNode := 4
  curr := 0
  slabObjs := fun s => (List.range 145).map (145 * (s / 4) + ·)
  slabOf := fun a => 4 * (a / 145)
  slabCore := fun _ => 0
  coreid := fun _ => 0
  objTotSz := 112
  fragmentation := 144
  slabPages := 4
  afterFree := fun _ => 1
  givesBack := fun out a => (List.range 145).all fun i => !out (145 * (a / 145) + i)
  extentFind := firstExtent mapPages

/-- An item that nobody has used. -/
def blankItem : Item := ⟨none, 0, 0, 0, false, false, 0, 0, [], [], []⟩

/-- What the allocator returns and `do_item_alloc` fills: the object `a` with a key. -/
def Node.given (σ : Node) (a : Addr) (key : List UInt8) : Node :=
  { σ with
    table := σ.table.setItem a ⟨none, 0, 34, 7, false, false, 0, keyLength, key.take keyLength, suffixText 0 34, []⟩
    out := Function.update σ.out a true, tscFree := Function.update σ.tscFree a slabInUse }

/-- The suffix of such an item has seven characters, -/
theorem suffix_length : (suffixText 0 34).length = 7 := by decide +kernel

/-- and it is as large as the objects of its slab. -/
theorem item_size : sizeofItem + (keyLength + 1) + (suffixText 0 (vLength + 2)).length + (vLength + 2) = mcSlabObjSz := by
  rw [show vLength + 2 = 34 from rfl, suffix_length]
  rfl

/-- A new item can be filled, -/
theorem given_fill (σ : Node) (a : Addr) (key : List UInt8) :
    fillItem { σ with
      table := σ.table.setItem a blankItem, out := Function.update σ.out a true, tscFree := Function.update σ.tscFree a slabInUse }
      a key keyLength 0 (vLength + 2) = some (σ.given a key) := by
  simp [fillItem, Node.modify, Table.setItem, Node.given, blankItem, vLength, suffix_length]

/-- so that `do_item_alloc` may return it. -/
theorem given_alloc {X : Ext} {σ : Node} {a : Addr} (key : List UInt8) (free : σ.out a = false) :
    DoItemAlloc X σ key keyLength 0 (vLength + 2) (some a) (Node.given { σ with used := (σ.used + X.objTotSz) % u64 } a key) :=
  .first ⟨item_size, .object blankItem free⟩ (given_fill _ a key)

/-- `mc_set_key_rcv` with the next object the allocator has. -/
def Node.setNext (σ : Node) (fuel : Nat) (a : Addr) (key data : List UInt8) (clock : Clock) : Option Node :=
  mcSetItem itemExt fuel (Node.given { σ with used := (σ.used + itemExt.objTotSz) % u64 } a key) a key keyLength data vLength 0 clock

/-- A set with a given item is a step. -/
theorem NodeRun.setNext {σ σ' : Node} {fuel : Nat} {a : Addr} {key data : List UInt8} {clock : Clock} (run : NodeRun itemExt (fun _ => 0) σ)
    (keyLen : key.length = keyLength) (dataLen : data.length = vLength) (free : σ.out a = false)
    (set : σ.setNext fuel a key data clock = some σ') : NodeRun itemExt (fun _ => 0) σ' :=
  run.step (.set keyLen dataLen rfl (.ok (given_alloc key free) set))

/-- A key of zeros. -/
def zeroKey : List UInt8 := List.replicate keyLength 0

/-- The node at the beginning, once a key has been set, and once it has been set again. -/
def firstNode : Node :=
  ⟨⟨fun _ => none, fun _ => blankItem⟩, fun _ => 1, fun _ => none, 0, 0, fun _ => false, 0, 0, 0, 0, 0, fun _ => false, false⟩

def setNode : Node := (firstNode.setNext 1 0 zeroKey (List.replicate vLength 0) ⟨0, 0⟩).getD firstNode

def twiceNode : Node := (setNode.setNext 2 1 zeroKey (List.replicate vLength 1) ⟨5, 0⟩).getD setNode

/-- The first set goes through, -/
theorem setNode_set : firstNode.setNext 1 0 zeroKey (List.replicate vLength 0) ⟨0, 0⟩ = some setNode := rfl

/-- and so does the second. -/
theorem twiceNode_set : setNode.setNext 2 1 zeroKey (List.replicate vLength 1) ⟨5, 0⟩ = some twiceNode := rfl

/-- Both are a run. -/
theorem twiceNode_run : NodeRun itemExt (fun _ => 0) twiceNode := by
  have start : NodeRun itemExt (fun _ => 0) firstNode := .init _ _ _ _ _ _
  have once : NodeRun itemExt (fun _ => 0) setNode := start.setNext List.length_replicate List.length_replicate rfl setNode_set
  exact once.setNext List.length_replicate List.length_replicate rfl twiceNode_set

/-- The key is set twice: the first item is out of the table and on the ring, and reclaiming it leaves the second. -/
theorem retired_unreachable_same_key :
    (¬ ∃ b, twiceNode.table.InBucket b 0) ∧ twiceNode.Queued 0 ∧ (∃ b, twiceNode.table.InBucket b 1) ∧ ¬ twiceNode.Queued 1 ∧
      ∃ σ' freed, memSmrReclaim itemExt twiceNode 100000000 = some (112, σ') ∧ Returned itemExt twiceNode σ' 112 freed := by
  obtain ⟨_, objects, _, reclaims, _⟩ := retired_unreachable twiceNode_run
  obtain ⟨oldTable, oldRing⟩ := objects 0 rfl
  obtain ⟨newTable, newRing⟩ := objects 1 rfl
  have unlinked : ¬ (twiceNode.table.items 0).linked = true := by decide
  have linked : (twiceNode.table.items 1).linked = true := rfl
  have reclaim : memSmrReclaim itemExt twiceNode 100000000 =
      some (112, ((memSmrReclaim itemExt twiceNode 100000000).getD (0, twiceNode)).2) := rfl
  obtain ⟨freed, returned⟩ := reclaims _ _ _ reclaim
  refine ⟨fun inside => unlinked (oldTable.mp inside), ?_, newTable.mpr linked, newRing.mp linked, _, freed, reclaim, returned⟩
  by_contra free
  exact unlinked (oldRing.mpr free)

end BiProject.BiMc
