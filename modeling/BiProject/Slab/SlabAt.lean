import BiProject.Slab.BiSlab

/-!
# One slab in its block

What the words of a block say when it is a slab, and what the functions on slabs and on the two lists of
an info do to them. The free objects are a chain that only `nfree` bounds: the link of its last object
is never looked at.
-/

namespace BiProject.Slab
set_option autoImplicit false
open BiProject.Lib.ListMem

/-! ## Where things are -/

/-- The header of the `j`-th object of a block. -/
def Layout.header (L : Layout) (objSz : Nat) (b : Block) (j : Nat) : Nat :=
  L.block b + sizeofPsSlab + j * psSlabObjmemsz objSz

theorem Layout.list_injective (L : Layout) : Function.Injective fun b : Block => L.block b + offList := by
  intro a b same
  simp only [Layout.block, memMgrObjSz, offList] at same
  exact Fin.ext (by omega)

theorem Layout.list_apart (L : Layout) (a b : Block) : L.block a + offList ≠ L.block b + offList + 8 := by
  intro same
  simp only [Layout.block, memMgrObjSz, offList] at same
  omega

/-- The ring nodes of slabs: the fields `list` of their blocks. -/
def Layout.slabNodes (L : Layout) : Nodes Block where
  addr := fun b => L.block b + offList
  inj := L.list_injective
  apart := L.list_apart

/-- The words of a block that tell what is free in it. -/
def Meta (L : Layout) (objSz : Nat) (b : Block) (x : Nat) : Prop :=
  (∃ off ∈ [offMemory, offMemItem, offSi, offFreelist, offNfree], x = L.block b + off) ∨
    ∃ j < biSlabNobjs objSz, x = L.header objSz b j + offSlab ∨ x = L.header objSz b j + offNext

/-- The block `b` is a slab of the info `si`, with the free objects `F`, the next one first. -/
structure SlabAt (L : Layout) (m : Mem) (si objSz : Nat) (b : Block) (F : List Nat) : Prop where
  memory : m (L.block b + offMemory) = L.block b
  item : m (L.block b + offMemItem) = L.item b
  info : m (L.block b + offSi) = si
  nfree : m (L.block b + offNfree) = F.length
  chain : Counted offNext m (m (L.block b + offFreelist)) (F.map (L.header objSz b))
  owner : ∀ j < biSlabNobjs objSz, m (L.header objSz b j + offSlab) = L.block b
  nodup : F.Nodup
  bound : ∀ j ∈ F, j < biSlabNobjs objSz

/-- The head pointer of a list of slabs. -/
def Layout.first (L : Layout) : List Block → Nat
  | [] => 0
  | b :: _ => L.block b

/-- The slabs `xs` are on the list with this head. -/
structure SlabList (L : Layout) (m : Mem) (head : Nat) (xs : List Block) : Prop where
  ring : Ring L.slabNodes m xs
  head : head = L.first xs

section
variable {L : Layout} {m m' : Mem} {si objSz : Nat} {b : Block} {F : List Nat}

theorem Layout.block_pos (L : Layout) (b : Nat) : L.block b ≠ 0 := by
  have pos := L.start_pos
  simp only [Layout.block]
  omega

/-- Different blocks do not overlap. -/
theorem Layout.block_apart (L : Layout) {a b : Block} (differ : a ≠ b) :
    L.block a + memMgrObjSz ≤ L.block b ∨ L.block b + memMgrObjSz ≤ L.block a := by
  have vals := Fin.val_ne_of_ne differ
  simp only [Layout.block, memMgrObjSz]
  omega

theorem Layout.block_inj (L : Layout) {a b : Block} (same : L.block a = L.block b) : a = b := by
  by_contra differ
  have apart := L.block_apart differ
  simp only [memMgrObjSz] at apart
  omega

/-- A later object lies behind the whole memory of an earlier one. -/
theorem Layout.header_lt (L : Layout) (objSz : Nat) (b : Block) {i j : Nat} (less : i < j) :
    L.header objSz b i + psSlabObjmemsz objSz ≤ L.header objSz b j := by
  have step : (i + 1) * psSlabObjmemsz objSz ≤ j * psSlabObjmemsz objSz := Nat.mul_le_mul_right _ less
  rw [Nat.succ_mul] at step
  simp only [Layout.header]
  omega

/-- The memory of an object lies in its block, behind the slab header. -/
theorem Geometry.header_inside (geo : Geometry objSz) (L : Layout) (b : Block) {j : Nat} (bound : j < biSlabNobjs objSz) :
    L.block b + sizeofPsSlab ≤ L.header objSz b j ∧
      L.header objSz b j + psSlabObjmemsz objSz ≤ L.block b + memMgrObjSz := by
  have last := L.header_lt objSz b bound
  have inside := geo.inside
  constructor
  · simp only [Layout.header]
    omega
  · refine Nat.le_trans last ?_
    simp only [Layout.header]
    omega

/-- Those words lie in the block and are no list links. -/
theorem Meta.inside {x : Nat} (geo : Geometry objSz) (here : Meta L objSz b x) :
    L.block b ≤ x ∧ x < L.block b + memMgrObjSz ∧ x ≠ L.block b + offList ∧ x ≠ L.block b + offList + 8 := by
  rcases here with ⟨off, member, rfl⟩ | ⟨j, bound, rfl | rfl⟩
  · simp only [List.mem_cons, List.not_mem_nil, or_false, offMemory, offMemItem, offSi, offFreelist, offNfree] at member
    simp only [memMgrObjSz, offList]
    omega
  · obtain ⟨low, high⟩ := geo.header_inside L b bound
    have line := geo.line
    simp only [sizeofPsSlab, memMgrObjSz, offList, offSlab] at *
    omega
  · obtain ⟨low, high⟩ := geo.header_inside L b bound
    have line := geo.line
    simp only [sizeofPsSlab, memMgrObjSz, offList, offNext] at *
    omega

/-- They are no links of another slab either. -/
theorem Meta.not_link {x : Nat} (geo : Geometry objSz) (here : Meta L objSz b x) (a : Block) :
    x ≠ L.slabNodes.addr a ∧ x ≠ L.slabNodes.addr a + 8 := by
  obtain ⟨low, high, next, prev⟩ := here.inside geo
  simp only [Layout.slabNodes]
  by_cases same : a = b
  · rw [same]
    exact ⟨next, prev⟩
  · have apart := L.block_apart same
    simp only [memMgrObjSz, offList] at *
    omega

theorem SlabAt.frame (slab : SlabAt L m si objSz b F) (same : ∀ x, Meta L objSz b x → m' x = m x) :
    SlabAt L m' si objSz b F := by
  have field : ∀ off ∈ [offMemory, offMemItem, offSi, offFreelist, offNfree], m' (L.block b + off) = m (L.block b + off) :=
    fun off member => same _ (Or.inl ⟨off, member, rfl⟩)
  refine ⟨?_, ?_, ?_, ?_, ?_, ?_, slab.nodup, slab.bound⟩
  · exact (field _ (by simp)).trans slab.memory
  · exact (field _ (by simp)).trans slab.item
  · exact (field _ (by simp)).trans slab.info
  · exact (field _ (by simp)).trans slab.nfree
  · rw [field offFreelist (by simp)]
    refine slab.chain.frame fun c member => ?_
    obtain ⟨j, free, rfl⟩ := List.mem_map.mp member
    exact same _ (Or.inr ⟨j, slab.bound j free, Or.inr rfl⟩)
  · exact fun j bound => (same _ (Or.inr ⟨j, bound, Or.inl rfl⟩)).trans (slab.owner j bound)

/-- The number of free objects is at most the capacity. -/
theorem SlabAt.length_le (slab : SlabAt L m si objSz b F) : F.length ≤ biSlabNobjs objSz := by
  have subset : F ⊆ List.range (biSlabNobjs objSz) := fun j member => List.mem_range.mpr (slab.bound j member)
  have shorter := (slab.nodup.subperm subset).length_le
  rwa [List.length_range] at shorter

end

/-! ## The lists of slabs -/

/-- Words that are no links of these slabs. -/
def NoLink (L : Layout) (xs : List Block) (x : Nat) : Prop :=
  ∀ a ∈ xs, x ≠ L.slabNodes.addr a ∧ x ≠ L.slabNodes.addr a + 8

section
variable {L : Layout} {m m' : Mem} {head : Nat} {b : Block} {xs ys : List Block}

theorem SlabList.frame (list : SlabList L m head xs) (same : SameAt L.slabNodes m m' xs) : SlabList L m' head xs :=
  ⟨list.ring.frame same, list.head⟩

@[simp] theorem Layout.first_nil (L : Layout) : L.first [] = 0 := rfl

@[simp] theorem Layout.first_cons (L : Layout) (b : Block) (xs : List Block) : L.first (b :: xs) = L.block b := rfl

theorem SlabList.head_eq_zero (list : SlabList L m head xs) : head = 0 ↔ xs = [] := by
  rw [list.head]
  cases xs with
  | nil => simp
  | cons a rest => simp [L.block_pos]

theorem psListSingleton_iff (ring : Ring L.slabNodes m (b :: xs)) : psListSingleton m (L.block b) = true ↔ xs = [] := by
  rw [psListSingleton, psListLlEmpty, beq_iff_eq]
  exact ring.singleton_iff

/-- **`__slab_freelist_rem`** takes a slab out of the list it is on. -/
theorem SlabList.rem (ys : List Block) (list : SlabList L m head (ys ++ b :: xs)) :
    ∃ head' m', slabFreelistRem m head (L.block b) = some (head', m') ∧ SlabList L m' head' (ys ++ xs) ∧
      Ring L.slabNodes m' [b] ∧ ∀ x, NoLink L (ys ++ b :: xs) x → m' x = m x := by
  obtain ⟨ring, alone, same⟩ := list.ring.unlink_mid ys
  have called : ∀ head', (if head = L.block b then if psListSingleton m (L.block b) then 0 else psListNext m (L.block b)
      else head) = head' → slabFreelistRem m head (L.block b) = some (head', unlink m (L.slabNodes.addr b)) := by
    rintro head' rfl
    simp [slabFreelistRem, L.block_pos, psListLlRem, Layout.slabNodes]
  refine ⟨_, _, called _ rfl, ⟨ring, ?_⟩, alone, same⟩
  have start := list.head
  cases ys with
  | nil =>
    rw [List.nil_append, L.first_cons] at start
    rw [if_pos start]
    have single := psListSingleton_iff list.ring
    by_cases last : xs = []
    · rw [if_pos (single.mpr last), last, List.nil_append, L.first_nil]
    · rw [if_neg (fun same => last (single.mp same))]
      obtain ⟨c, rest, rfl⟩ := List.exists_cons_of_ne_nil last
      have next : m (L.block b + offList) = L.block c + offList := list.ring.next
      rw [psListNext, next, Nat.add_sub_cancel, List.nil_append, L.first_cons]
  | cons y rest =>
    rw [List.cons_append, L.first_cons] at start
    have differ : head ≠ L.block b := by
      intro same
      have first : y = b := L.block_inj (start.symm.trans same)
      exact (List.nodup_cons.mp list.ring.nodup).1 (by simp [first])
    rw [if_neg differ, List.cons_append, L.first_cons, start]

/-- **`__slab_freelist_add`** puts a slab that is on no list in front. -/
theorem SlabList.add (list : SlabList L m head xs) (alone : Ring L.slabNodes m [b]) (new : b ∉ xs) :
    ∃ m' ys, slabFreelistAdd m head (L.block b) = some (L.block b, m') ∧ ys.Perm xs ∧
      SlabList L m' (L.block b) (b :: ys) ∧ ∀ x, NoLink L (b :: xs) x → m' x = m x := by
  have single := (psListSingleton_iff alone).mpr rfl
  cases xs with
  | nil =>
    obtain rfl : head = 0 := by rw [list.head, L.first_nil]
    refine ⟨m, [], ?_, .nil, ⟨alone, (L.first_cons b []).symm⟩, fun x _ => rfl⟩
    simp [slabFreelistAdd, L.block_pos, single]
  | cons a rest =>
    obtain rfl : head = L.block a := by rw [list.head, L.first_cons]
    have differ : L.block b ≠ L.block a := fun same => new (by simp [L.block_inj same])
    have ring := list.ring.linkAfter new
    refine ⟨linkAfter m (L.slabNodes.addr a) (L.slabNodes.addr b), rest ++ [a], ?_, ?_,
      ⟨?_, (L.first_cons b _).symm⟩, fun x away => ?_⟩
    · simp [slabFreelistAdd, L.block_pos, single, differ, psListLlAdd, Layout.slabNodes]
    · exact List.perm_append_singleton a rest
    · exact Ring.rotate ring
    · exact linkAfter_other list.ring new away

end

/-! ## A new slab -/

section
variable {m : Mem} {base objmemsz : Nat}

/-- The rounds of the loop of `__ps_slab_init` from the `i`-th on: they enter the slab into the headers
and link each header from the one before. -/
theorem psSlabInitLoop_spec (s base : Nat) (line : 64 ≤ objmemsz) (k : Nat) {i : Nat} {m : Mem} :
    ∃ m', psSlabInitLoop s objmemsz k (base + (i - 1) * objmemsz) (base + i * objmemsz) m =
        (base + (i + k) * objmemsz, m') ∧
      (∀ x, x < base + i * objmemsz ∨ base + (i + k) * objmemsz ≤ x → x ≠ base + (i - 1) * objmemsz + offNext →
        m' x = m x) ∧
      (∀ j, i ≤ j → j < i + k → m' (base + j * objmemsz + offSlab) = s) ∧
      ∀ j, i ≤ j + 1 → j + 1 < i + k → m' (base + j * objmemsz + offNext) = base + (j + 1) * objmemsz := by
  induction k generalizing i m with
  | zero => exact ⟨m, rfl, fun x _ _ => rfl, fun j low high => by omega, fun j low high => by omega⟩
  | succ k ih =>
    have next : base + i * objmemsz + objmemsz = base + (i + 1) * objmemsz := by rw [Nat.succ_mul]; omega
    have prev : i = 0 ∨ base + (i - 1) * objmemsz + objmemsz = base + i * objmemsz := by
      cases i with
      | zero => exact Or.inl rfl
      | succ i =>
        right
        rw [Nat.succ_mul, Nat.add_sub_cancel]
        omega
    have notPrev : base + i * objmemsz + 8 ≠ base + (i - 1) * objmemsz + 16 := by
      rcases prev with rfl | before
      · omega
      · omega
    have last : i + (k + 1) = i + 1 + k := by omega
    have rest : (i + 1) * objmemsz ≤ (i + 1 + k) * objmemsz := Nat.mul_le_mul_right _ (by omega)
    obtain ⟨m', run, out, owner, link⟩ := ih (i := i + 1)
      (m := store (psMheadInit m (base + i * objmemsz) s) (base + (i - 1) * objmemsz + offNext) (base + i * objmemsz))
    simp only [Nat.add_sub_cancel, offNext, offSlab, psMheadInit, offType, Nat.add_zero] at *
    refine ⟨m', ?_, fun x away notPrev => ?_, fun j low high => ?_, fun j low high => ?_⟩
    · rw [psSlabInitLoop]
      simp only [psMheadInit, offNext, offSlab, offType, Nat.add_zero]
      rw [next, run, last]
    · rw [last] at away
      rw [out x (by omega) (by omega), store_other notPrev, store_other (by omega), store_other (by omega)]
    · rcases Nat.eq_or_lt_of_le low with rfl | later
      · rw [out _ (by omega) (by omega), store_other notPrev, store_other (by omega), store_same]
      · exact owner j later (by omega)
    · rcases Nat.eq_or_lt_of_le low with here | later
      · subst here
        rw [Nat.add_sub_cancel] at *
        rw [out _ (by omega) (by omega), store_same]
      · exact link j (by omega) (by omega)

/-- Headers linked one to the next are a chain. -/
theorem counted_range (base objmemsz k : Nat) {i : Nat}
    (link : ∀ j, i ≤ j → j + 1 < i + k → m (base + j * objmemsz + offNext) = base + (j + 1) * objmemsz) :
    Counted offNext m (base + i * objmemsz) ((List.range' i k).map fun j => base + j * objmemsz) := by
  induction k generalizing i with
  | zero => trivial
  | succ k ih =>
    refine ⟨rfl, ?_⟩
    cases k with
    | zero => trivial
    | succ k =>
      rw [link i (Nat.le_refl i) (by omega)]
      exact ih fun j low high => link j (by omega) (by omega)

end

section
variable {L : Layout} {st : State} {si objSz : Nat} {b : Block} {rest : List Block}

/-- **`__ps_slab_init`** makes a block whose first fields `ps_slab_defalloc` has filled a slab of free
objects, whatever else it holds, and puts it on the empty freelist. -/
theorem psSlabInit_spec (st : State) (geo : Geometry objSz) (size : (st.infos si).objSz = objSz) (empty : (st.infos si).fl = 0)
    (memory : st.mem (L.block b + offMemory) = L.block b) (item : st.mem (L.block b + offMemItem) = L.item b) :
    ∃ m', psSlabInit st si (L.block b) memMgrObjSz sizeofPsSlab =
        some ({ st with mem := m' }.setInfo si { st.infos si with fl := L.block b }) ∧
      SlabAt L m' si objSz b (List.range (biSlabNobjs objSz)) ∧ SlabList L m' (L.block b) [b] ∧
      m' (L.block b + offFreelist) = L.block b + sizeofPsSlab ∧
      (biSlabNobjs objSz = 1 → m' (L.header objSz b 0 + offNext) = L.header objSz b 0) ∧
      ∀ x, x < L.block b ∨ L.block b + memMgrObjSz ≤ x → m' x = st.mem x := by
  have inside := geo.inside
  obtain ⟨m', run, out, owner, link⟩ := psSlabInitLoop_spec (L.block b) (L.block b + sizeofPsSlab) geo.line (biSlabNobjs objSz)
    (i := 0) (m := store (store (store (store st.mem (L.block b + offNfree) (biSlabNobjs objSz)) (L.block b + offMemsz) memMgrObjSz)
      (L.block b + offSi) si) (L.block b + offFreelist) (L.block b + sizeofPsSlab))
  simp only [Nat.zero_le, true_imp_iff, Nat.zero_mul, Nat.zero_sub, Nat.add_zero, Nat.zero_add] at run out owner link
  have low : ∀ x, x < L.block b + sizeofPsSlab → m' x = _ := fun x below => out x (Or.inl below) (by omega)
  have linked : ∀ x, x ≠ L.slabNodes.addr b → x ≠ L.slabNodes.addr b + 8 →
      psListLlInit m' (L.block b + offList) x = m' x := fun x next prev => selfLink_other (N := L.slabNodes) next prev
  have alone : Ring L.slabNodes (psListLlInit m' (L.block b + offList)) [b] := ring_selfLink
  have kept : ∀ off ∈ [offMemory, offMemItem, offSi, offFreelist, offNfree],
      psListLlInit m' (L.block b + offList) (L.block b + off) = m' (L.block b + off) := by
    intro off member
    obtain ⟨next, prev⟩ := Meta.not_link geo (Or.inl ⟨off, member, rfl⟩ : Meta L objSz b _) b
    exact linked _ next prev
  have headers : ∀ j < biSlabNobjs objSz, ∀ off ∈ [offSlab, offNext],
      psListLlInit m' (L.block b + offList) (L.header objSz b j + off) = m' (L.header objSz b j + off) := by
    intro j bound off member
    simp only [List.mem_cons, List.not_mem_nil, or_false] at member
    obtain ⟨next, prev⟩ := Meta.not_link geo (Or.inr ⟨j, bound, member.imp (congrArg _) (congrArg _)⟩ : Meta L objSz b _) b
    exact linked _ next prev
  have start : m' (L.block b + offMemory) = L.block b := by
    rw [low _ (by simp [offMemory, sizeofPsSlab])]
    simpa [store, offMemory, offFreelist, offSi, offMemsz, offNfree] using memory
  have first : m' (L.block b + offFreelist) = L.block b + sizeofPsSlab := by
    rw [low _ (by simp [offFreelist, sizeofPsSlab]), store_same]
  refine ⟨psListLlInit m' (L.block b + offList), ?_, ⟨?_, ?_, ?_, ?_, ?_, ?_, ?_, ?_⟩,
    ⟨alone, (L.first_cons b []).symm⟩, ?_, fun one => ?_, fun x away => ?_⟩
  · have single := (psListSingleton_iff alone).mpr rfl
    have begins : store (store (store st.mem (L.block b + offNfree) (biSlabNobjs objSz)) (L.block b + offMemsz) memMgrObjSz)
        (L.block b + offSi) si (L.block b + offMemory) = L.block b := by
      simpa [store, offMemory, offSi, offMemsz, offNfree] using memory
    have fits : L.block b + sizeofPsSlab + biSlabNobjs objSz * psSlabObjmemsz objSz ≤ L.block b + memMgrObjSz := by omega
    have nobjs : (memMgrObjSz - sizeofPsSlab) / psSlabObjmemsz objSz = biSlabNobjs objSz := rfl
    have divisor : psSlabObjmemsz objSz ≠ 0 := by
      have line := geo.line
      omega
    simp only [psSlabInit, size, divisor, nobjs, begins, run, start, guard, fits, if_true, empty, slabFreelistAdd, single,
      L.block_pos, ne_eq, not_false_iff, not_true, if_false, Option.pure_def, Option.bind_eq_bind, Option.bind_some]
  · exact (kept _ (by simp)).trans start
  · rw [kept _ (by simp), low _ (by simp [offMemItem, sizeofPsSlab])]
    simpa [store, offMemItem, offFreelist, offSi, offMemsz, offNfree] using item
  · rw [kept _ (by simp), low _ (by simp [offSi, sizeofPsSlab])]
    simp [store, offSi, offFreelist]
  · rw [kept _ (by simp), low _ (by simp [offNfree, sizeofPsSlab]), List.length_range]
    simp [store, offNfree, offFreelist, offSi, offMemsz]
  · rw [kept _ (by simp), first, List.range_eq_range']
    have chain := counted_range (L.block b + sizeofPsSlab) (psSlabObjmemsz objSz) (biSlabNobjs objSz) (i := 0)
      (m := psListLlInit m' (L.block b + offList)) fun j _ high =>
        (headers j (by omega) offNext (by simp)).trans (link j (by omega))
    rwa [Nat.zero_mul, Nat.add_zero] at chain
  · exact fun j bound => (headers j bound offSlab (by simp)).trans (owner j bound)
  · exact List.nodup_range
  · exact fun j member => List.mem_range.mp member
  · exact (kept _ (by simp)).trans first
  · -- the only round links the header to itself
    rw [headers 0 (by omega) offNext (by simp)]
    rw [one] at run
    rw [← (Prod.mk.inj run).2, Layout.header, Nat.zero_mul, Nat.add_zero, store_same]
  · simp only [memMgrObjSz, sizeofPsSlab] at inside away out
    rw [linked x (by simp only [Layout.slabNodes, offList]; omega) (by simp only [Layout.slabNodes, offList]; omega),
      out x (by omega) (by simp only [offNext]; omega), store_other (by simp only [offFreelist]; omega),
      store_other (by simp only [offSi]; omega), store_other (by simp only [offMemsz]; omega),
      store_other (by simp only [offNfree]; omega)]

/-- **A new slab**: with an empty freelist, the first block of the pool becomes a slab of free objects. -/
theorem psSlabPick_new (geo : Geometry objSz) (size : (st.infos si).objSz = objSz) (empty : (st.infos si).fl = 0)
    (pool : Pool L st.pool (b :: rest)) :
    ∃ m' pool', psSlabPick L st si memMgrObjSz sizeofPsSlab =
        some (L.block b, ({ st with mem := m', pool := pool' }.setInfo si
          { st.infos si with fl := L.block b, nslabs := incr (st.infos si).nslabs })) ∧
      Pool L pool' rest ∧ SlabAt L m' si objSz b (List.range (biSlabNobjs objSz)) ∧ SlabList L m' (L.block b) [b] ∧
      (biSlabNobjs objSz = 1 → m' (L.header objSz b 0 + offNext) = L.header objSz b 0) ∧
      ∀ x, x < L.block b ∨ L.block b + memMgrObjSz ≤ x → m' x = st.mem x := by
  obtain ⟨pool', taken, poolAfter⟩ := pool.alloc
  have addr := poolAfter.addr b
  have picked : psSlabDefalloc L st memMgrObjSz = some (L.block b,
      { st with mem := store (store st.mem (L.block b + offMemory) (L.block b)) (L.block b + offMemItem) (L.item b)
                pool := pool' }) := by
    simp only [psSlabDefalloc, taken, addr, guard, L.block_pos, ne_eq, not_false_iff, if_true, Option.pure_def,
      Option.bind_eq_bind, Option.bind_some]
  obtain ⟨m', init, slab, list, first, only, out⟩ := psSlabInit_spec (L := L) (b := b)
    { st with mem := store (store st.mem (L.block b + offMemory) (L.block b)) (L.block b + offMemItem) (L.item b)
              pool := pool' } geo size empty
    (by simp [store, offMemory, offMemItem]) (by simp)
  refine ⟨m', pool', ?_, poolAfter, slab, list, only, fun x away => ?_⟩
  · have notNull : m' (L.block b + offMemory) ≠ 0 ∧ m' (L.block b + offFreelist) ≠ 0 := by
      rw [slab.memory, first]
      exact ⟨L.block_pos b, by simp [sizeofPsSlab]⟩
    simp only [psSlabPick, empty, if_true, picked, init, guard, State.setInfo, Function.update_self, Function.update_idem,
      notNull, ne_eq, not_false_iff, and_self, Option.pure_def, Option.bind_eq_bind, Option.bind_some]
  · simp only [memMgrObjSz] at away out
    rw [out x away, store_other (by simp only [offMemItem]; omega), store_other (by simp only [offMemory]; omega)]

end

/-! ## Objects of a slab -/

/-- Words outside a block, and the list links in it. -/
def Elsewhere (L : Layout) (b : Block) (x : Nat) : Prop :=
  (x < L.block b ∨ L.block b + memMgrObjSz ≤ x) ∨ x = L.slabNodes.addr b ∨ x = L.slabNodes.addr b + 8

theorem incr_eq {x : Nat} (small : x + 1 < u64) : incr x = x + 1 := Nat.mod_eq_of_lt small

theorem decr_eq {x : Nat} (small : x + 1 < u64) : decr (x + 1) = x := by
  simp only [decr, u64] at *
  omega

section
variable {L : Layout} {m : Mem} {si objSz : Nat} {b : Block} {F : List Nat} {j : Nat}

/-- Words of the headers of different objects. -/
theorem Geometry.header_ne (geo : Geometry objSz) (L : Layout) (b : Block) {i j off off' : Nat} (differ : i ≠ j)
    (small : off < 64) (small' : off' < 64) : L.header objSz b i + off ≠ L.header objSz b j + off' := by
  have line := geo.line
  rcases Nat.lt_or_gt_of_ne differ with less | greater
  · have apart := L.header_lt objSz b less
    omega
  · have apart := L.header_lt objSz b greater
    omega

theorem SlabAt.small (geo : Geometry objSz) (slab : SlabAt L m si objSz b F) : F.length + 1 < u64 := by
  have few := geo.few
  have shorter := slab.length_le
  simp only [u64]
  omega

/-- **The next free object is taken**: its header is the one `freelist` points to. -/
theorem SlabAt.take (geo : Geometry objSz) (slab : SlabAt L m si objSz b (j :: F)) (tsc : Nat) :
    m (L.block b + offFreelist) = L.header objSz b j ∧
      let m' := psMheadReset (store (store m (L.block b + offFreelist) (m (L.header objSz b j + offNext)))
        (L.block b + offNfree) (decr (j :: F).length)) (L.header objSz b j) tsc
      SlabAt L m' si objSz b F ∧ m' (L.block b + offFreelist) = m (L.header objSz b j + offNext) ∧
        ∀ x, Elsewhere L b x → m' x = m x := by
  obtain ⟨first, chain⟩ := slab.chain
  refine ⟨first, ?_⟩
  intro m'
  obtain ⟨low, high⟩ := geo.header_inside L b (slab.bound j (by simp))
  have line := geo.line
  have small := slab.small geo
  have fresh := (List.nodup_cons.mp slab.nodup).1
  simp only [sizeofPsSlab] at low
  -- the four words that are stored to
  have other : ∀ x, x ≠ L.block b + offFreelist → x ≠ L.block b + offNfree → x ≠ L.header objSz b j + offNext →
      x ≠ L.header objSz b j + offType → m' x = m x := by
    intro x list count next type
    simp only [m', psMheadReset]
    rw [store_other type, store_other next, store_other count, store_other list]
  have early : ∀ off, off < 128 → off ≠ offFreelist → off ≠ offNfree → m' (L.block b + off) = m (L.block b + off) := by
    intro off bound list count
    simp only [offFreelist, offNfree] at list count
    refine other _ ?_ ?_ ?_ ?_
    · simp only [offFreelist]; omega
    · simp only [offNfree]; omega
    · simp only [offNext]; omega
    · simp only [offType]; omega
  have list : m' (L.block b + offFreelist) = m (L.header objSz b j + offNext) := by
    simp only [m', psMheadReset]
    rw [store_other (by simp only [offFreelist, offType]; omega), store_other (by simp only [offFreelist, offNext]; omega),
      store_other (by simp [offFreelist, offNfree]), store_same]
  refine ⟨⟨?_, ?_, ?_, ?_, ?_, ?_, (List.nodup_cons.mp slab.nodup).2, fun k free => slab.bound k (by simp [free])⟩, list, ?_⟩
  · exact (early _ (by decide) (by decide) (by decide)).trans slab.memory
  · exact (early _ (by decide) (by decide) (by decide)).trans slab.item
  · exact (early _ (by decide) (by decide) (by decide)).trans slab.info
  · simp only [m', psMheadReset, List.length_cons] at small ⊢
    rw [store_other (by simp only [offNfree, offType]; omega), store_other (by simp only [offNfree, offNext]; omega),
      store_same, decr_eq (Nat.lt_of_succ_lt small)]
  · rw [list]
    refine chain.frame fun c member => ?_
    obtain ⟨k, free, rfl⟩ := List.mem_map.mp member
    have differ : k ≠ j := by
      rintro rfl
      exact fresh free
    obtain ⟨lowK, _⟩ := geo.header_inside L b (slab.bound k (by simp [free]))
    simp only [sizeofPsSlab] at lowK
    refine other _ ?_ ?_ (geo.header_ne L b differ (by decide) (by decide)) (geo.header_ne L b differ (by decide) (by decide))
    · simp only [offNext, offFreelist]; omega
    · simp only [offNext, offNfree]; omega
  · intro k bound
    obtain ⟨lowK, _⟩ := geo.header_inside L b bound
    simp only [sizeofPsSlab] at lowK
    refine (other _ ?_ ?_ ?_ ?_).trans (slab.owner k bound)
    · simp only [offSlab, offFreelist]; omega
    · simp only [offSlab, offNfree]; omega
    · by_cases same : k = j
      · simp [same, offSlab, offNext]
      · exact geo.header_ne L b same (by decide) (by decide)
    · by_cases same : k = j
      · simp [same, offSlab, offType]
      · exact geo.header_ne L b same (by decide) (by decide)
  · intro x away
    simp only [Elsewhere, Layout.slabNodes, memMgrObjSz, offList] at away high
    refine other _ ?_ ?_ ?_ ?_
    · simp only [offFreelist]; omega
    · simp only [offNfree]; omega
    · simp only [offNext]; omega
    · simp only [offType]; omega

/-- **An object is given back** and is the next free one. -/
theorem SlabAt.give (geo : Geometry objSz) (slab : SlabAt L m si objSz b F) (bound : j < biSlabNobjs objSz) (used : j ∉ F) :
    let m' := store (store (store m (L.block b + offFreelist) (L.header objSz b j)) (L.header objSz b j + offNext)
      (m (L.block b + offFreelist))) (L.block b + offNfree) (incr F.length)
    SlabAt L m' si objSz b (j :: F) ∧ ∀ x, Elsewhere L b x → m' x = m x := by
  intro m'
  obtain ⟨low, high⟩ := geo.header_inside L b bound
  have line := geo.line
  have small := slab.small geo
  simp only [sizeofPsSlab] at low
  have other : ∀ x, x ≠ L.block b + offFreelist → x ≠ L.block b + offNfree → x ≠ L.header objSz b j + offNext →
      m' x = m x := by
    intro x list count next
    simp only [m']
    rw [store_other count, store_other next, store_other list]
  have early : ∀ off, off < 128 → off ≠ offFreelist → off ≠ offNfree → m' (L.block b + off) = m (L.block b + off) := by
    intro off inside list count
    simp only [offFreelist, offNfree] at list count
    refine other _ ?_ ?_ ?_
    · simp only [offFreelist]; omega
    · simp only [offNfree]; omega
    · simp only [offNext]; omega
  refine ⟨⟨?_, ?_, ?_, ?_, ⟨?_, ?_⟩, ?_, List.nodup_cons.mpr ⟨used, slab.nodup⟩, ?_⟩, ?_⟩
  · exact (early _ (by decide) (by decide) (by decide)).trans slab.memory
  · exact (early _ (by decide) (by decide) (by decide)).trans slab.item
  · exact (early _ (by decide) (by decide) (by decide)).trans slab.info
  · simp only [m']
    rw [store_same, incr_eq small, List.length_cons]
  · simp only [m']
    rw [store_other (by simp [offFreelist, offNfree]), store_other (by simp only [offFreelist, offNext]; omega), store_same]
  · have next : m' (L.header objSz b j + offNext) = m (L.block b + offFreelist) := by
      simp only [m']
      rw [store_other (by simp only [offNext, offNfree]; omega), store_same]
    rw [next]
    refine slab.chain.frame fun c member => ?_
    obtain ⟨k, free, rfl⟩ := List.mem_map.mp member
    have differ : k ≠ j := by
      rintro rfl
      exact used free
    obtain ⟨lowK, _⟩ := geo.header_inside L b (slab.bound k free)
    simp only [sizeofPsSlab] at lowK
    refine other _ ?_ ?_ (geo.header_ne L b differ (by decide) (by decide))
    · simp only [offNext, offFreelist]; omega
    · simp only [offNext, offNfree]; omega
  · intro k inside
    obtain ⟨lowK, _⟩ := geo.header_inside L b inside
    simp only [sizeofPsSlab] at lowK
    refine (other _ ?_ ?_ ?_).trans (slab.owner k inside)
    · simp only [offSlab, offFreelist]; omega
    · simp only [offSlab, offNfree]; omega
    · by_cases same : k = j
      · simp [same, offSlab, offNext]
      · exact geo.header_ne L b same (by decide) (by decide)
  · intro k free
    rcases List.mem_cons.mp free with rfl | later
    · exact bound
    · exact slab.bound k later
  · intro x away
    simp only [Elsewhere, Layout.slabNodes, memMgrObjSz, offList] at away high
    refine other _ ?_ ?_ ?_
    · simp only [offFreelist]; omega
    · simp only [offNfree]; omega
    · simp only [offNext]; omega

end

end BiProject.Slab
