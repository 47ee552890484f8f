import BiProject.Malloc.BiMalloc

/-!
# Runs of `bi_malloc` and `bi_free`

A block is always with one owner: a free list, a thread in the middle of a call, or the callers. The
invariant says so, and that each list is a chain of blocks of its own size.
-/

namespace BiProject.Malloc
set_option autoImplicit false
open BiProject.Lib.ListMem BiProject.Lib.Regions

/-! ## Owners -/

/-- Who may have a piece of the area: a list, a thread in a call, or the callers. -/
inductive Owner (T : Type) where
  | list (lid idx : Nat)
  | thread (t : T)
  | live

/-- The bytes of a block with its header. -/
def Alloc.region (o : Alloc) : Region := ⟨o.block, o.need⟩

/-- The blocks `cs` as blocks of the class `idx`. -/
def blocks (idx : Nat) (cs : List Nat) : List Region := cs.map fun a => ⟨a, classSize idx⟩

/-- What a thread holds in the middle of a call. -/
def Pc.holds : Pc → List Region
  | .idle => []
  | .mapped _ need start => pieces start need
  | .filling _ need ptr => [⟨ptr, need⟩]
  | .freeing o _ _ => [o.region]

/-- All regions, with the blocks `chain` of the free lists. -/
def Sys.holdings {T : Type} (σ : Sys T) (chain : Nat → Nat → List Nat) : Owner T → List Region
  | .list lid idx => blocks idx (chain lid idx)
  | .thread t => (σ.pc t).holds
  | .live => σ.live.map Alloc.region

/-- A small block of the list `lid` was carved for it, with a size of one of the classes. -/
def Classed (carved : List (Region × Nat)) (block need lid : Nat) : Prop :=
  need ≤ maxSmallSize → lid < numFreeList ∧ (∃ idx < 10, need = classSize idx) ∧ (⟨block, need⟩, lid) ∈ carved

/-- What a thread knows in the middle of a call. -/
def Pc.Knows (carved : List (Region × Nat)) (lid : Nat) : Pc → Prop
  | .idle => True
  | .mapped size need _ => size + sizeofAlloc ≤ need ∧ ∃ idx < 10, need = classSize idx
  | .filling size need ptr => size + sizeofAlloc ≤ need ∧ Classed carved ptr need lid
  | .freeing o size lid => size = o.need ∧ lid = o.lid ∧ o.need ≤ maxSmallSize ∧ Classed carved o.block o.need o.lid

/-- What is true of a live allocation: its header, its size, and where its block comes from. -/
structure Alloc.Kept (m : Mem) (carved : List (Region × Nat)) (o : Alloc) : Prop where
  size : m (o.block + offSize) = o.need
  lid : m (o.block + offLid) = o.lid
  enough : o.size + sizeofAlloc ≤ o.need
  classed : Classed carved o.block o.need o.lid

section
variable {T : Type}

/-- **The invariant.** -/
structure Kept (A : Area) (core : T → Fin numCorePerNode) (σ : Sys T) (chain : Nat → Nat → List Nat) : Prop where
  owned : Owned (σ.holdings chain)
  inside : ∀ k, ∀ r ∈ σ.holdings chain k, A.start ≤ r.start ∧ r.start + r.size ≤ σ.st.bump ∧ sizeofAlloc ≤ r.size
  bump : A.start ≤ σ.st.bump ∧ σ.st.bump < A.endAddr
  chains : ∀ lid idx, Chain offNext σ.st.mem (σ.st.fl lid idx) (chain lid idx)
  carved : ∀ lid idx, ∀ a ∈ chain lid idx, (⟨a, classSize idx⟩, lid) ∈ σ.carved
  live : ∀ o ∈ σ.live, o.Kept σ.st.mem σ.carved
  knows : ∀ t, (σ.pc t).Knows σ.carved (getLockId (core t))

variable {A : Area} {core : T → Fin numCorePerNode} {σ : Sys T} {chain : Nat → Nat → List Nat}

/-- Words that changed lie in regions of the owner `k`. -/
def Sys.Only (σ : Sys T) (chain : Nat → Nat → List Nat) (k : Owner T) (m' : Mem) : Prop :=
  ∀ x, m' x ≠ σ.st.mem x → ∃ r ∈ σ.holdings chain k, r.start ≤ x ∧ x < r.start + r.size

/-- A word in a region of another owner has not changed. -/
theorem Kept.same (kept : Kept A core σ chain) {k k' : Owner T} {m' : Mem} (only : σ.Only chain k m') (differ : k ≠ k')
    {r : Region} (held : r ∈ σ.holdings chain k') {off : Nat} (header : off < sizeofAlloc) :
    m' (r.start + off) = σ.st.mem (r.start + off) := by
  by_contra changed
  obtain ⟨s, owner, low, high⟩ := only _ changed
  have apart := kept.owned.across k k' differ s owner r held
  have large := (kept.inside k' r held).2.2
  unfold Region.Apart at apart
  omega

/-- A list is as before if only the blocks of another owner were stored to, -/
theorem Kept.chain_same (kept : Kept A core σ chain) {k : Owner T} {m' : Mem} (only : σ.Only chain k m') {lid idx : Nat}
    (differ : k ≠ .list lid idx) : Chain offNext m' (σ.st.fl lid idx) (chain lid idx) := by
  refine (kept.chains lid idx).frame fun a member => ?_
  have held : ⟨a, classSize idx⟩ ∈ σ.holdings chain (.list lid idx) := List.mem_map_of_mem member
  exact kept.same only differ held (by decide)

/-- and so is a block in use. -/
theorem Kept.live_same (kept : Kept A core σ chain) {k : Owner T} {m' : Mem} (only : σ.Only chain k m') (differ : k ≠ .live)
    {o : Alloc} (live : o ∈ σ.live) : o.Kept m' σ.carved := by
  have held : o.region ∈ σ.holdings chain .live := List.mem_map_of_mem live
  have old := kept.live o live
  refine ⟨?_, ?_, old.enough, old.classed⟩
  · exact (kept.same only differ held (by decide)).trans old.size
  · exact (kept.same only differ held (by decide)).trans old.lid

/-- Nothing was stored to. -/
theorem Sys.only_refl (σ : Sys T) (chain : Nat → Nat → List Nat) (k : Owner T) : σ.Only chain k σ.st.mem :=
  fun _ changed => absurd rfl changed

/-- A store into the header of a block. -/
theorem Kept.only_header (kept : Kept A core σ chain) {k : Owner T} {m : Mem} (only : σ.Only chain k m) {r : Region}
    (held : r ∈ σ.holdings chain k) {off v : Nat} (header : off < sizeofAlloc) : σ.Only chain k (store m (r.start + off) v) := by
  intro x changed
  by_cases here : x = r.start + off
  · have large := (kept.inside k r held).2.2
    exact ⟨r, held, by omega, by omega⟩
  · rw [store_other here] at changed
    exact only x changed

/-- Users do not reach the chains and the headers. -/
theorem Kept.write (kept : Kept A core σ chain) {m' : Mem} (only : ∀ x, m' x ≠ σ.st.mem x → σ.Writable x) :
    Kept A core { σ with st := { σ.st with mem := m' } } chain := by
  have inside : σ.Only chain .live m' := by
    intro x changed
    obtain ⟨o, live, after, before⟩ := only x changed
    have enough := (kept.live o live).enough
    refine ⟨o.region, List.mem_map_of_mem live, ?_, ?_⟩ <;> simp only [Alloc.region, blockRet, sizeofAlloc] at * <;> omega
  refine ⟨kept.owned, kept.inside, kept.bump, fun lid idx => kept.chain_same inside (by simp), kept.carved, fun o live => ?_, kept.knows⟩
  have old := kept.live o live
  -- no user writes into a header, his own or another one
  have same : ∀ off, off < sizeofAlloc → off % 8 = 0 → m' (o.block + off) = σ.st.mem (o.block + off) := by
    intro off header aligned
    by_contra changed
    obtain ⟨o', live', after, before⟩ := only _ changed
    have enough := (kept.live o' live').enough
    have large := old.enough
    simp only [blockRet, sizeofAlloc] at *
    by_cases same : o = o'
    · subst same
      omega
    · have apart : o.region.Apart o'.region := by
        have pairs := List.pairwise_map.mp (kept.owned.each .live)
        exact pairs.forall live live' same
      simp only [Region.Apart, Alloc.region] at apart
      omega
  exact ⟨(same _ (by decide) (by decide)).trans old.size, (same _ (by decide) (by decide)).trans old.lid, old.enough, old.classed⟩

/-! ## A step at two owners -/

/-- A block stays a piece of its class when more is carved, -/
theorem Classed.mono {carved carved' : List (Region × Nat)} (more : carved ⊆ carved') {block need lid : Nat}
    (classed : Classed carved block need lid) : Classed carved' block need lid := fun small =>
  ⟨(classed small).1, (classed small).2.1, more (classed small).2.2⟩

/-- and a thread knows what it knew. -/
theorem Pc.Knows.mono {carved carved' : List (Region × Nat)} (more : carved ⊆ carved') {lid : Nat} {pc : Pc}
    (knows : pc.Knows carved lid) : pc.Knows carved' lid := by
  cases pc with
  | idle => trivial
  | mapped size need start => exact knows
  | filling size need ptr => exact ⟨knows.1, knows.2.mono more⟩
  | freeing o size lid => exact ⟨knows.1, knows.2.1, knows.2.2.1, knows.2.2.2.mono more⟩

/-- Regions that are moved are inside as before; new ones lie behind the old `bump_addr`. -/
theorem Kept.inside_change (kept : Kept A core σ chain) {σ' : Sys T} {chain' : Nat → Nat → List Nat} {k k' : Owner T}
    {new : List Region} (grow : σ.st.bump ≤ σ'.st.bump)
    (fits : ∀ r ∈ new, σ.st.bump ≤ r.start ∧ r.start + r.size ≤ σ'.st.bump ∧ sizeofAlloc ≤ r.size)
    (rest : ∀ j, j ≠ k → j ≠ k' → σ'.holdings chain' j = σ.holdings chain j)
    (moved : (σ'.holdings chain' k ++ σ'.holdings chain' k').Subperm (new ++ (σ.holdings chain k ++ σ.holdings chain k'))) :
    ∀ j, ∀ r ∈ σ'.holdings chain' j, A.start ≤ r.start ∧ r.start + r.size ≤ σ'.st.bump ∧ sizeofAlloc ≤ r.size := by
  have old : ∀ j, ∀ r ∈ σ.holdings chain j, A.start ≤ r.start ∧ r.start + r.size ≤ σ'.st.bump ∧ sizeofAlloc ≤ r.size := by
    intro j r held
    obtain ⟨low, high, large⟩ := kept.inside j r held
    exact ⟨low, Nat.le_trans high grow, large⟩
  intro j r held
  by_cases here : j = k ∨ j = k'
  · have member : r ∈ σ'.holdings chain' k ++ σ'.holdings chain' k' := by
      rcases here with rfl | rfl
      · exact List.mem_append_left _ held
      · exact List.mem_append_right _ held
    rcases List.mem_append.mp (moved.subset member) with fresh | before
    · obtain ⟨low, high, large⟩ := fits r fresh
      exact ⟨Nat.le_trans kept.bump.1 low, high, large⟩
    · rcases List.mem_append.mp before with first | second
      · exact old k r first
      · exact old k' r second
  · rw [not_or] at here
    rw [rest j here.1 here.2] at held
    exact old j r held

end

section
variable {T : Type} [DecidableEq T] {A : Area} {core : T → Fin numCorePerNode} {σ : Sys T} {chain : Nat → Nat → List Nat}

@[simp] theorem Sys.goto_self (σ : Sys T) (t : T) (pc : Pc) : σ.goto t pc t = pc := Function.update_self _ _ _

/-- The other threads stay where they are. -/
theorem Sys.goto_other (σ : Sys T) {t u : T} (pc : Pc) (differ : u ≠ t) : σ.goto t pc u = σ.pc u :=
  Function.update_of_ne differ _ _

/-- The other threads know what they knew. -/
theorem Kept.knows_goto (kept : Kept A core σ chain) {t : T} {pc : Pc} {carved' : List (Region × Nat)} (more : σ.carved ⊆ carved')
    (knows : pc.Knows carved' (getLockId (core t))) (u : T) : (σ.goto t pc u).Knows carved' (getLockId (core u)) := by
  by_cases here : u = t
  · subst here
    rwa [σ.goto_self]
  · rw [σ.goto_other pc here]
    exact (kept.knows u).mono more

/-- The free lists with another list at one place. -/
def setChain (chain : Nat → Nat → List Nat) (lid idx : Nat) (cs : List Nat) : Nat → Nat → List Nat :=
  fun l i => if l = lid ∧ i = idx then cs else chain l i

@[simp] theorem setChain_self (chain : Nat → Nat → List Nat) (lid idx : Nat) (cs : List Nat) :
    setChain chain lid idx cs lid idx = cs := if_pos ⟨rfl, rfl⟩

/-- The other lists stay as they are, -/
theorem setChain_other (chain : Nat → Nat → List Nat) {lid idx l i : Nat} (cs : List Nat) (other : ¬ (l = lid ∧ i = idx)) :
    setChain chain lid idx cs l i = chain l i := if_neg other

@[simp] theorem State.setList_self (st : State) (lid idx head : Nat) : (st.setList lid idx head).fl lid idx = head :=
  if_pos ⟨rfl, rfl⟩

/-- and so do their heads. -/
theorem State.setList_other (st : State) {lid idx l i : Nat} (head : Nat) (other : ¬ (l = lid ∧ i = idx)) :
    (st.setList lid idx head).fl l i = st.fl l i := if_neg other

@[simp] theorem State.setList_mem (st : State) (lid idx head : Nat) : (st.setList lid idx head).mem = st.mem := rfl

@[simp] theorem State.setList_bump (st : State) (lid idx head : Nat) : (st.setList lid idx head).bump = st.bump := rfl

/-- **A step of a thread with a free list**: blocks move between the two, and what is stored lies in blocks of
one of them. -/
theorem Kept.exchange (kept : Kept A core σ chain) {t : T} {lid idx head : Nat} {cs : List Nat} {pc : Pc} {m' : Mem}
    {carved' : List (Region × Nat)} {k : Owner T} (only : σ.Only chain k m') (place : k = .list lid idx ∨ k = .thread t)
    (mine : Chain offNext m' head cs) (more : σ.carved ⊆ carved') (carved : ∀ a ∈ cs, (⟨a, classSize idx⟩, lid) ∈ carved')
    (knows : pc.Knows carved' (getLockId (core t)))
    (moved : (blocks idx cs ++ pc.holds).Subperm (blocks idx (chain lid idx) ++ (σ.pc t).holds)) :
    Kept A core ⟨{ σ.st with mem := m' }.setList lid idx head, σ.goto t pc, σ.live, carved'⟩ (setChain chain lid idx cs) := by
  have differ : Owner.list lid idx ≠ Owner.thread t := by simp
  have notLive : k ≠ .live := by
    rcases place with rfl | rfl <;> simp
  have rest : ∀ j : Owner T, j ≠ .list lid idx → j ≠ .thread t →
      Sys.holdings ⟨{ σ.st with mem := m' }.setList lid idx head, σ.goto t pc, σ.live, carved'⟩ (setChain chain lid idx cs) j =
        σ.holdings chain j := by
    intro j notList notThread
    cases j with
    | list l i =>
      have other : ¬ (l = lid ∧ i = idx) := fun same => notList (by rw [same.1, same.2])
      simp only [Sys.holdings, setChain_other chain cs other]
    | thread u =>
      have other : u ≠ t := fun same => notThread (by rw [same])
      simp only [Sys.holdings, σ.goto_other pc other]
    | live => rfl
  have same : (Sys.holdings ⟨{ σ.st with mem := m' }.setList lid idx head, σ.goto t pc, σ.live, carved'⟩
        (setChain chain lid idx cs) (.list lid idx) ++
      Sys.holdings ⟨{ σ.st with mem := m' }.setList lid idx head, σ.goto t pc, σ.live, carved'⟩
        (setChain chain lid idx cs) (.thread t)).Subperm
      ([] ++ (σ.holdings chain (.list lid idx) ++ σ.holdings chain (.thread t))) := by
    simpa only [Sys.holdings, setChain_self, σ.goto_self, List.nil_append] using moved
  refine ⟨kept.owned.change differ .nil (by simp) rest same, kept.inside_change (Nat.le_refl _) (by simp) rest same, kept.bump,
    fun l i => ?_, fun l i a member => ?_, fun o live => ?_, kept.knows_goto more knows⟩
  · by_cases here : l = lid ∧ i = idx
    · obtain ⟨rfl, rfl⟩ := here
      simpa using mine
    · rw [State.setList_other _ head here, setChain_other chain cs here]
      refine kept.chain_same only ?_
      rcases place with rfl | rfl
      · simp only [ne_eq, Owner.list.injEq]
        exact fun same => here ⟨same.1.symm, same.2.symm⟩
      · simp
  · by_cases here : l = lid ∧ i = idx
    · obtain ⟨rfl, rfl⟩ := here
      rw [setChain_self] at member
      exact carved a member
    · rw [setChain_other chain cs here] at member
      exact more (kept.carved l i a member)
  · have old := kept.live_same only notLive live
    exact ⟨old.size, old.lid, old.enough, old.classed.mono more⟩

/-- **A step of a thread with the callers**: blocks move between the two, or come from behind `bump_addr`. -/
theorem Kept.handover (kept : Kept A core σ chain) {t : T} {pc : Pc} {m' : Mem} {bump' : Nat} {live' : List Alloc}
    (new : List Region) (only : σ.Only chain (.thread t) m') (grow : σ.st.bump ≤ bump') (ends : bump' < A.endAddr)
    (fresh : new.Pairwise Region.Apart)
    (fits : ∀ r ∈ new, σ.st.bump ≤ r.start ∧ r.start + r.size ≤ bump' ∧ sizeofAlloc ≤ r.size)
    (knows : pc.Knows σ.carved (getLockId (core t))) (live : ∀ o ∈ live', o ∈ σ.live ∨ o.Kept m' σ.carved)
    (moved : (pc.holds ++ live'.map Alloc.region).Subperm (new ++ ((σ.pc t).holds ++ σ.live.map Alloc.region))) :
    Kept A core ⟨{ σ.st with mem := m', bump := bump' }, σ.goto t pc, live', σ.carved⟩ chain := by
  have differ : Owner.thread t ≠ Owner.live := by simp
  have rest : ∀ j : Owner T, j ≠ .thread t → j ≠ .live →
      Sys.holdings ⟨{ σ.st with mem := m', bump := bump' }, σ.goto t pc, live', σ.carved⟩ chain j = σ.holdings chain j := by
    intro j notThread notLive
    cases j with
    | list l i => rfl
    | thread u =>
      have other : u ≠ t := fun same => notThread (by rw [same])
      simp only [Sys.holdings, σ.goto_other pc other]
    | live => exact absurd rfl notLive
  have same : (Sys.holdings ⟨{ σ.st with mem := m', bump := bump' }, σ.goto t pc, live', σ.carved⟩ chain (.thread t) ++
      Sys.holdings ⟨{ σ.st with mem := m', bump := bump' }, σ.goto t pc, live', σ.carved⟩ chain .live).Subperm
      (new ++ (σ.holdings chain (.thread t) ++ σ.holdings chain .live)) := by
    simpa only [Sys.holdings, σ.goto_self] using moved
  have away : ∀ r ∈ new, ∀ j, ∀ s ∈ σ.holdings chain j, r.Apart s := by
    intro r member j s held
    exact Or.inr (Nat.le_trans (kept.inside j s held).2.1 (fits r member).1)
  refine ⟨kept.owned.change differ fresh away rest same, kept.inside_change grow fits rest same,
    ⟨Nat.le_trans kept.bump.1 grow, ends⟩, fun l i => kept.chain_same only (by simp), kept.carved, fun o member => ?_,
    kept.knows_goto (fun _ => id) knows⟩
  rcases live o member with old | new
  · exact kept.live_same only (by simp) old
  · exact new

/-! ## The steps -/

/-- A thread takes the first block of a list. -/
theorem Kept.take (kept : Kept A core σ chain) {t : T} {size ptr : Nat} {st' : State} (here : σ.pc t = .idle)
    (small : size + sizeofAlloc ≤ maxSmallSize)
    (run : smallTake σ.st (getSize (size + sizeofAlloc)) (getLockId (core t)) = some (ptr, st')) :
    ∃ chain', Kept A core { σ with st := st', pc := σ.goto t (.filling size (getSize (size + sizeofAlloc)) ptr) } chain' := by
  have bound := getIndex_lt (request_pos size) small
  have enough := le_getSize (request_pos size) small
  rw [getSize_eq] at run enough ⊢
  generalize getIndex (size + sizeofAlloc) = idx at run bound enough ⊢
  generalize lids : getLockId (core t) = lid at run
  have listed := kept.chains lid idx
  simp only [smallTake, getIndex_classSize bound, Option.bind_eq_bind, Option.bind_eq_some_iff, Option.guard_eq_some', exists_const,
    Option.pure_def, Option.some.injEq, Prod.mk.injEq] at run
  obtain ⟨valid, notNull, rfl, rfl⟩ := run
  cases list : chain lid idx with
  | nil =>
    rw [list] at listed
    exact absurd listed notNull
  | cons a rest =>
    rw [list] at listed
    obtain ⟨head, pos, tail⟩ := listed
    rw [head]
    have held : ∀ c ∈ a :: rest, ⟨c, classSize idx⟩ ∈ σ.holdings chain (.list lid idx) := by
      intro c member
      exact List.mem_map_of_mem (list ▸ member)
    have first := held a List.mem_cons_self
    have only : σ.Only chain (.list lid idx) (store σ.st.mem (a + offNext) 0) :=
      kept.only_header (σ.only_refl chain _) first (by decide)
    have apart : ∀ c ∈ rest, c + offNext ≠ a + offNext := by
      intro c member same
      have pairs := kept.owned.each (.list lid idx)
      simp only [Sys.holdings, list, blocks, List.map_cons, List.pairwise_cons] at pairs
      have far := pairs.1 _ (List.mem_map_of_mem member)
      have large := (kept.inside _ _ first).2.2
      simp only [Region.Apart, sizeofAlloc] at far large
      omega
    have mine : Chain offNext (store σ.st.mem (a + offNext) 0) (σ.st.mem (a + offNext)) rest :=
      tail.frame fun c member => store_other (apart c member)
    have old := kept.carved lid idx
    rw [list] at old
    have knows : (Pc.filling size (classSize idx) a).Knows σ.carved (getLockId (core t)) := by
      refine ⟨enough, fun _ => ?_⟩
      rw [lids]
      exact ⟨valid, ⟨idx, bound, rfl⟩, old a List.mem_cons_self⟩
    refine ⟨_, kept.exchange only (Or.inl rfl) mine (fun _ => id) (fun c member => old c (List.mem_cons_of_mem a member)) knows ?_⟩
    rw [list, here]
    refine List.Perm.subperm ?_
    simp only [Pc.holds, List.append_nil, blocks, List.map_cons]
    exact List.perm_append_singleton _ _

/-- The pieces of a block are apart -/
theorem pieces_apart (start size : Nat) : (pieces start size).Pairwise Region.Apart := by
  refine List.pairwise_map.mpr (List.Pairwise.imp ?_ List.pairwise_lt_range)
  intro i j less
  left
  have step := Nat.mul_le_mul_right size (Nat.succ_le_of_lt less)
  rw [Nat.succ_mul] at step
  show start + i * size + size ≤ start + j * size
  omega

/-- and inside it, each with room for its header. -/
theorem pieces_inside {start idx : Nat} (bound : idx < 10) :
    ∀ r ∈ pieces start (classSize idx), start ≤ r.start ∧ r.start + r.size ≤ start + memBlockSize ∧ sizeofAlloc ≤ r.size := by
  intro r member
  obtain ⟨i, range, rfl⟩ := List.mem_map.mp member
  have last := Nat.mul_le_mul_right (classSize idx) (Nat.succ_le_of_lt (List.mem_range.mp range))
  rw [smallNr_mul bound, Nat.succ_mul] at last
  have pos : 0 < 2 ^ idx := Nat.two_pow_pos idx
  refine ⟨by simp, by show start + i * classSize idx + classSize idx ≤ _; omega, ?_⟩
  simp only [classSize, sizeofAlloc]
  omega

/-- `do_mmap` moves `bump_addr` if there is room, -/
theorem doMmap_some {st : State} {size : Nat} (noWrap : st.bump + size < u64) (ends : st.bump + size < A.endAddr) :
    doMmap A st size = some (st.bump, { st with bump := st.bump + size }) := by
  simp [doMmap, Nat.mod_eq_of_lt noWrap, ends]

/-- and does nothing else. -/
theorem doMmap_eq {st st' : State} {size start : Nat} (noWrap : st.bump + size < u64)
    (run : doMmap A st size = some (start, st')) :
    start = st.bump ∧ st' = { st with bump := st.bump + size } ∧ st.bump + size < A.endAddr := by
  by_cases ends : st.bump + size < A.endAddr
  · rw [doMmap_some noWrap ends, Option.some.injEq, Prod.mk.injEq] at run
    exact ⟨run.1.symm, run.2.symm, ends⟩
  · simp [doMmap, Nat.mod_eq_of_lt noWrap, ends] at run

/-- A thread gets a block to cut up, -/
theorem Kept.map (kept : Kept A core σ chain) {t : T} {size start : Nat} {st' : State} (here : σ.pc t = .idle)
    (small : size + sizeofAlloc ≤ maxSmallSize) (noWrap : σ.st.bump + memBlockSize < u64)
    (run : doMmap A σ.st memBlockSize = some (start, st')) :
    Kept A core { σ with st := st', pc := σ.goto t (.mapped size (getSize (size + sizeofAlloc)) start) } chain := by
  obtain ⟨rfl, rfl, ends⟩ := doMmap_eq noWrap run
  have bound := getIndex_lt (request_pos size) small
  have enough := le_getSize (request_pos size) small
  rw [getSize_eq] at enough ⊢
  have knows : (Pc.mapped size (classSize (getIndex (size + sizeofAlloc))) σ.st.bump).Knows σ.carved (getLockId (core t)) :=
    ⟨enough, _, bound, rfl⟩
  refine kept.handover _ (σ.only_refl chain _) (Nat.le_add_right _ _) ends (pieces_apart _ _) (pieces_inside bound) knows
    (fun o => Or.inl) ?_
  rw [here]
  exact List.Subperm.refl _

/-- or a large block of its own. -/
theorem Kept.large (kept : Kept A core σ chain) {t : T} {size ptr : Nat} {st' : State} (here : σ.pc t = .idle)
    (large : maxSmallSize < size + sizeofAlloc) (noWrap : σ.st.bump + (size + sizeofAlloc) < u64)
    (run : doMmap A σ.st (size + sizeofAlloc) = some (ptr, st')) :
    Kept A core { σ with st := st', pc := σ.goto t (.filling size (size + sizeofAlloc) ptr) } chain := by
  obtain ⟨rfl, rfl, ends⟩ := doMmap_eq noWrap run
  have knows : (Pc.filling size (size + sizeofAlloc) σ.st.bump).Knows σ.carved (getLockId (core t)) :=
    ⟨Nat.le_refl _, fun small => absurd small (Nat.not_le.mpr large)⟩
  refine kept.handover [⟨σ.st.bump, size + sizeofAlloc⟩] (σ.only_refl chain _) (Nat.le_add_right _ _) ends
    (List.pairwise_singleton _ _) ?_ knows (fun o => Or.inl) ?_
  · intro r member
    obtain rfl := List.mem_singleton.mp member
    exact ⟨Nat.le_refl _, Nat.le_refl _, Nat.le_add_left _ _⟩
  · rw [here]
    exact List.Subperm.refl _

/-- It fills the header, and the block is the user's. -/
theorem Kept.finish (kept : Kept A core σ chain) {t : T} {size need ptr : Nat} (here : σ.pc t = .filling size need ptr) :
    Kept A core { σ with
        st := { σ.st with mem := fillHeader σ.st.mem ptr need (getLockId (core t)) }
        pc := σ.goto t .idle, live := ⟨ptr, size, need, getLockId (core t)⟩ :: σ.live } chain := by
  have knows := kept.knows t
  rw [here] at knows
  have held : ⟨ptr, need⟩ ∈ σ.holdings chain (.thread t) := by simp [Sys.holdings, here, Pc.holds]
  have only : σ.Only chain (.thread t) (fillHeader σ.st.mem ptr need (getLockId (core t))) :=
    kept.only_header (kept.only_header (σ.only_refl chain _) held (by decide)) held (by decide)
  have idle : Pc.idle.Knows σ.carved (getLockId (core t)) := trivial
  refine kept.handover [] only (Nat.le_refl _) kept.bump.2 .nil (by simp) idle (fun o member => ?_) ?_
  · rcases List.mem_cons.mp member with rfl | old
    · refine Or.inr ⟨?_, store_same _ _ _, knows.1, knows.2⟩
      rw [fillHeader, store_other (by simp [offSize, offLid]), store_same]
    · exact Or.inl old
  · rw [here]
    exact List.Subperm.refl _

/-- From what the user gets one is back at the header. -/
theorem blockStart_blockRet (b : Nat) : blockStart (blockRet b) = b := Nat.add_sub_cancel b sizeofAlloc

/-- A user gives a block back. -/
theorem Kept.free (kept : Kept A core σ chain) {t : T} {o : Alloc} (here : σ.pc t = .idle) (live : o ∈ σ.live) :
    Kept A core { σ with
        pc := σ.goto t
          (if σ.st.mem (blockStart (blockRet o.block) + offSize) ≤ maxSmallSize then
            .freeing o (σ.st.mem (blockStart (blockRet o.block) + offSize)) (σ.st.mem (blockStart (blockRet o.block) + offLid))
          else .idle)
        live := σ.live.erase o } chain := by
  have old := kept.live o live
  rw [blockStart_blockRet, old.size, old.lid]
  have split : (σ.live.map Alloc.region).Perm (o.region :: (σ.live.erase o).map Alloc.region) :=
    (List.perm_cons_erase live).map Alloc.region
  have fewer : ∀ o' ∈ σ.live.erase o, o' ∈ σ.live ∨ o'.Kept σ.st.mem σ.carved := fun o' member => Or.inl (List.mem_of_mem_erase member)
  by_cases small : o.need ≤ maxSmallSize
  · rw [if_pos small]
    have knows : (Pc.freeing o o.need o.lid).Knows σ.carved (getLockId (core t)) := ⟨rfl, rfl, small, old.classed⟩
    refine kept.handover [] (σ.only_refl chain _) (Nat.le_refl _) kept.bump.2 .nil (by simp) knows fewer ?_
    rw [here]
    exact split.symm.subperm
  · rw [if_neg small]
    have idle : Pc.idle.Knows σ.carved (getLockId (core t)) := trivial
    refine kept.handover [] (σ.only_refl chain _) (Nat.le_refl _) kept.bump.2 .nil (by simp) idle fewer ?_
    rw [here]
    exact (List.sublist_cons_self _ _).subperm.trans split.symm.subperm

/-- What `__small_free` does to a block of a class. -/
theorem smallFree_classed {st : State} {ptr idx lid : Nat} (bound : idx < 10) (valid : lid < numFreeList) :
    smallFree st ptr (classSize idx) lid =
      some ({ st with mem := store st.mem (ptr + offNext) (st.fl lid idx) }.setList lid idx ptr) := by
  simp [smallFree, getIndex_classSize bound, valid]

/-- It is put on the list that it came from. -/
theorem Kept.push (kept : Kept A core σ chain) {t : T} {o : Alloc} {size lid : Nat} {st' : State}
    (here : σ.pc t = .freeing o size lid) (run : smallFree σ.st (blockStart (blockRet o.block)) size lid = some st') :
    ∃ chain', Kept A core { σ with st := st', pc := σ.goto t .idle } chain' := by
  have knows := kept.knows t
  rw [here] at knows
  obtain ⟨rfl, rfl, small, classed⟩ := knows
  obtain ⟨valid, ⟨idx, bound, need⟩, carved⟩ := classed small
  rw [blockStart_blockRet, need, smallFree_classed bound valid] at run
  obtain rfl := Option.some.inj run
  have held : o.region ∈ σ.holdings chain (.thread t) := by simp [Sys.holdings, here, Pc.holds]
  have only : σ.Only chain (.thread t) (store σ.st.mem (o.block + offNext) (σ.st.fl o.lid idx)) :=
    kept.only_header (σ.only_refl chain _) held (by decide)
  have pos : o.block ≠ 0 := by
    have low := (kept.inside _ _ held).1
    have start := A.start_pos
    simp only [Alloc.region] at low
    omega
  have mine : Chain offNext (store σ.st.mem (o.block + offNext) (σ.st.fl o.lid idx)) o.block (o.block :: chain o.lid idx) := by
    refine ⟨rfl, pos, ?_⟩
    rw [store_same]
    exact kept.chain_same only (by simp)
  have idle : Pc.idle.Knows σ.carved (getLockId (core t)) := trivial
  refine ⟨_, kept.exchange only (Or.inr rfl) mine (fun _ => id) (fun a member => ?_) idle ?_⟩
  · rcases List.mem_cons.mp member with rfl | old
    · exact need ▸ carved
    · exact kept.carved o.lid idx a old
  · rw [here]
    refine List.Perm.subperm ?_
    have first : (⟨o.block, classSize idx⟩ : Region) = o.region := by rw [Alloc.region, need]
    simp only [Pc.holds, List.append_nil, blocks, List.map_cons, first]
    exact (List.perm_append_singleton _ _).symm

/-- The first piece of a block is for the caller, and the others are for the list. -/
theorem pieces_cons {start idx : Nat} (bound : idx < 10) :
    pieces start (classSize idx) = ⟨start, classSize idx⟩ ::
      blocks idx ((List.range (smallNr (classSize idx) - 1)).map fun j => start + classSize idx + j * classSize idx) := by
  obtain ⟨nr, count⟩ : ∃ nr, smallNr (classSize idx) = nr + 1 :=
    ⟨_, (Nat.sub_add_cancel (Nat.le_trans (by decide) (two_le_smallNr bound))).symm⟩
  have next : ∀ j, start + classSize idx + j * classSize idx = start + (j + 1) * classSize idx := fun j => by
    rw [Nat.succ_mul]
    omega
  simp [pieces, blocks, count, List.range_succ_eq_map, Function.comp_def, next]

/-- A block is cut up and its pieces are hooked in. -/
theorem Kept.refill (kept : Kept A core σ chain) {t : T} {size need start : Nat} (here : σ.pc t = .mapped size need start) :
    ∃ chain', Kept A core { σ with
        st := smallRefill σ.st start need (getLockId (core t)), pc := σ.goto t (.filling size need start)
        carved := (pieces start need).map (·, getLockId (core t)) ++ σ.carved } chain' := by
  have knows := kept.knows t
  rw [here] at knows
  obtain ⟨enough, idx, bound, rfl⟩ := knows
  have valid := getLockId_lt (core t)
  generalize lids : getLockId (core t) = lid at valid ⊢
  have two := two_le_smallNr bound
  have held : ∀ r ∈ pieces start (classSize idx), r ∈ σ.holdings chain (.thread t) := by
    intro r member
    simpa only [Sys.holdings, here, Pc.holds] using member
  have first : ⟨start, classSize idx⟩ ∈ pieces start (classSize idx) := by
    rw [pieces_cons bound]
    exact List.mem_cons_self
  obtain ⟨m', run, links, last, out⟩ := @smallRefill_spec σ.st start idx lid bound
  have only : σ.Only chain (.thread t) m' := by
    intro x changed
    by_contra outside
    refine changed (out x fun j less same => outside ⟨⟨start + j * classSize idx, classSize idx⟩, held _ ?_, ?_, ?_⟩)
    · exact List.mem_map.mpr ⟨j, List.mem_range.mpr less, rfl⟩
    · simp [same]
    · have pos : 0 < 2 ^ idx := Nat.two_pow_pos idx
      simp only [same, offNext, classSize]
      omega
  have pos : start ≠ 0 := by
    have low := (kept.inside _ _ (held _ first)).1
    have begins := A.start_pos
    simp only at low
    omega
  have next : ∀ j, start + classSize idx + j * classSize idx = start + (j + 1) * classSize idx := fun j => by
    rw [Nat.succ_mul]
    omega
  have old : Chain offNext m' (σ.st.fl lid idx) (chain lid idx) := kept.chain_same only (by simp)
  have mine := @Chain.row _ _ _ _ (classSize idx) old (smallNr (classSize idx) - 2) (start + classSize idx) (by omega)
    (fun j less => by rw [next, next]; exact links (j + 1) (by omega) (by omega))
    (by rw [next, show smallNr (classSize idx) - 2 + 1 = smallNr (classSize idx) - 1 by omega]; exact last)
  rw [show smallNr (classSize idx) - 2 + 1 = smallNr (classSize idx) - 1 by omega] at mine
  have new : ∀ r ∈ pieces start (classSize idx), (r, lid) ∈ (pieces start (classSize idx)).map (·, lid) ++ σ.carved :=
    fun r member => List.mem_append_left _ (List.mem_map_of_mem member)
  have knows : (Pc.filling size (classSize idx) start).Knows ((pieces start (classSize idx)).map (·, lid) ++ σ.carved)
      (getLockId (core t)) := by
    rw [lids]
    exact ⟨enough, fun _ => ⟨valid, ⟨idx, bound, rfl⟩, new _ first⟩⟩
  rw [run]
  refine ⟨_, kept.exchange only (Or.inr rfl) mine (List.subset_append_right _ _) (fun a member => ?_) knows ?_⟩
  · rcases List.mem_append.mp member with piece | before
    · refine new _ ?_
      rw [pieces_cons bound]
      exact List.mem_cons_of_mem _ (List.mem_map_of_mem piece)
    · exact List.mem_append_right _ (kept.carved lid idx a before)
  · rw [here]
    refine List.Perm.subperm ?_
    simp only [Pc.holds, pieces_cons bound, blocks, List.map_append]
    rw [List.append_assoc]
    refine List.perm_append_comm.trans ?_
    simp

/-! ## Every state of every run -/

omit [DecidableEq T] in

/-- The invariant holds after `bi_malloc_init`, -/
theorem Kept.start (A : Area) (core : T → Fin numCorePerNode) (m : Mem) :
    Kept A core ⟨biMallocInit A m, fun _ => .idle, [], []⟩ fun _ _ => [] := by
  have none : ∀ k, Sys.holdings (⟨biMallocInit A m, fun _ => .idle, [], []⟩ : Sys T) (fun _ _ => []) k = [] := by
    intro k
    cases k <;> rfl
  refine ⟨⟨fun k => ?_, fun k k' _ r held => ?_⟩, fun k r held => ?_, ⟨Nat.le_refl _, ?_⟩, fun _ _ => rfl, ?_, ?_, fun _ => trivial⟩
  · rw [none k]
    exact .nil
  · simp [none k] at held
  · simp [none k] at held
  · simp only [biMallocInit, Area.endAddr, memMgrObjSz, memMgrObjNum]
    omega
  · simp
  · simp

/-- each step keeps it, -/
theorem Kept.step (kept : Kept A core σ chain) {σ' : Sys T} (next : Step A core σ σ') : ∃ chain', Kept A core σ' chain' := by
  cases next with
  | take here _ small run => exact kept.take here small run
  | map here _ small _ noWrap run => exact ⟨chain, kept.map here small noWrap run⟩
  | refill here => exact kept.refill here
  | large here _ large noWrap run => exact ⟨chain, kept.large here large noWrap run⟩
  | finish here _ _ => exact ⟨chain, kept.finish here⟩
  | free here live _ => exact ⟨chain, kept.free here live⟩
  | push here run => exact kept.push here run
  | write only => exact ⟨chain, kept.write only⟩

/-- and so it holds throughout. -/
theorem Run.kept (run : Run A core σ) : ∃ chain, Kept A core σ chain := by
  induction run with
  | init m => exact ⟨_, Kept.start A core m⟩
  | step _ next ih =>
    obtain ⟨chain, kept⟩ := ih
    exact kept.step next

/-! ## A correct allocator -/

/-- The header and the bytes of one allocation end before those of the other begin. -/
def Alloc.Before (o o' : Alloc) : Prop := blockRet o.block + o.size ≤ o'.block

/-- What the allocator is for. -/
structure Correct (A : Area) (core : T → Fin numCorePerNode) (σ : Sys T) : Prop where
  apart : σ.live.Pairwise fun o o' => o.Before o' ∨ o'.Before o
  inside : ∀ o ∈ σ.live, A.start ≤ o.block ∧ blockRet o.block + o.size ≤ A.endAddr
  lists : ∀ lid < numFreeList, ∀ idx < 10, ∃ cs, Chain offNext σ.st.mem (σ.st.fl lid idx) cs ∧ cs.Nodup ∧
    (∀ a ∈ cs, (⟨a, 64 * 2 ^ idx⟩, lid) ∈ σ.carved) ∧ ∀ o ∈ σ.live, o.block ∉ cs
  returned : ∀ t o size lid, σ.pc t = .freeing o size lid → lid = o.lid ∧ o.need = 64 * 2 ^ getIndex size ∧
    (o.region, o.lid) ∈ σ.carved ∧ ∃ st', smallFree σ.st (blockStart (blockRet o.block)) size lid = some st' ∧
      st'.fl o.lid (getIndex size) = o.block
  asserts : ∀ t size need ptr, σ.pc t = .filling size need ptr → size + sizeofAlloc ≤ need ∧ ptr ≠ 0
  sized : ∀ o ∈ σ.live, σ.st.mem (blockStart (blockRet o.block) + offSize) ≠ 0

omit [DecidableEq T] in

/-- With it the allocator is correct. -/
theorem Kept.correct (kept : Kept A core σ chain) : Correct A core σ := by
  have pairs := List.pairwise_map.mp (kept.owned.each .live)
  have held : ∀ o ∈ σ.live, o.region ∈ σ.holdings chain .live := fun o live => List.mem_map_of_mem live
  refine ⟨?_, fun o live => ?_, fun lid _ idx _ => ⟨_, kept.chains lid idx, ?_, kept.carved lid idx, fun o live member => ?_⟩,
    fun t o size lid here => ?_, fun t size need ptr here => ?_, fun o live => ?_⟩
  · refine pairs.imp_of_mem fun live live' apart => ?_
    have enough := (kept.live _ live).enough
    have enough' := (kept.live _ live').enough
    simp only [Region.Apart, Alloc.region, Alloc.Before, blockRet] at apart ⊢
    omega
  · obtain ⟨low, high, _⟩ := kept.inside .live _ (held o live)
    have enough := (kept.live o live).enough
    have ends := kept.bump.2
    simp only [Alloc.region, blockRet] at low high ⊢
    omega
  · -- a block that occurs twice would overlap with itself
    refine (List.pairwise_map.mp (kept.owned.each (.list lid idx))).imp_of_mem fun member _ apart same => ?_
    have large := (kept.inside (.list lid idx) _ (List.mem_map_of_mem member)).2.2
    simp only [Region.Apart, sizeofAlloc, same] at apart large
    omega
  · have listed : ⟨o.block, classSize idx⟩ ∈ σ.holdings chain (.list lid idx) := List.mem_map_of_mem member
    have apart := kept.owned.across _ _ (by simp) _ listed _ (held o live)
    have large := (kept.inside _ _ listed).2.2
    have enough := (kept.live o live).enough
    simp only [Region.Apart, Alloc.region, sizeofAlloc] at apart large enough
    omega
  · have knows := kept.knows t
    rw [here] at knows
    obtain ⟨rfl, rfl, small, classed⟩ := knows
    obtain ⟨valid, ⟨idx, bound, need⟩, carved⟩ := classed small
    rw [need, getIndex_classSize bound]
    refine ⟨rfl, rfl, carved, _, smallFree_classed bound valid, ?_⟩
    rw [State.setList_self, blockStart_blockRet]
  · have knows := kept.knows t
    rw [here] at knows
    have low := (kept.inside (.thread t) ⟨ptr, need⟩ (by simp [Sys.holdings, here, Pc.holds])).1
    have begins := A.start_pos
    exact ⟨knows.1, by simp only at low; omega⟩
  · have old := kept.live o live
    have enough := old.enough
    rw [blockStart_blockRet, old.size]
    simp only [sizeofAlloc] at enough
    omega

/-- **`bi_malloc` and `bi_free` are a correct allocator**, in every state of every run. -/
theorem bi_malloc_correct (A : Area) (core : T → Fin numCorePerNode) (σ : Sys T) (run : Run A core σ) : Correct A core σ := by
  obtain ⟨chain, kept⟩ := run.kept
  exact kept.correct

/-! ## Whole calls -/

/-- One thread is in a call. -/
theorem Sys.goto_one {pc : T → Pc} {t : T} {p : Pc} (quiet : ∀ u, pc u = .idle ∨ u = t) (u : T) :
    Function.update pc t p u = .idle ∨ u = t := by
  by_cases same : u = t
  · exact Or.inr same
  · rw [Function.update_of_ne same]
    exact quiet u

/-- No thread is in a call when the only one has ended its call. -/
theorem Sys.goto_quiet {pc : T → Pc} {t : T} (quiet : ∀ u, pc u = .idle ∨ u = t) (u : T) : Function.update pc t .idle u = .idle := by
  by_cases same : u = t
  · rw [same, Function.update_self]
  · rw [Function.update_of_ne same]
    exact (quiet u).resolve_right same

/-- The end of a `bi_malloc`. -/
theorem Run.finishes (run : Run A core σ) {t : T} {size need ptr : Nat} (here : σ.pc t = .filling size need ptr)
    (quiet : ∀ u, σ.pc u = .idle ∨ u = t) :
    ∃ σ', Run A core σ' ∧ (∀ u, σ'.pc u = .idle) ∧ σ'.st.fl = σ.st.fl ∧ σ'.live = ⟨ptr, size, need, getLockId (core t)⟩ :: σ.live := by
  obtain ⟨chain, kept⟩ := run.kept
  have knows := kept.knows t
  rw [here] at knows
  have held : (⟨ptr, need⟩ : Region) ∈ σ.holdings chain (.thread t) := by simp [Sys.holdings, here, Pc.holds]
  have low := (kept.inside _ _ held).1
  have pos := A.start_pos
  have notNull : ptr ≠ 0 := by
    simp only at low
    omega
  exact ⟨_, run.step (.finish here knows.1 notNull), Sys.goto_quiet quiet, rfl, rfl⟩

/-- A `bi_malloc` of a small size with an empty list. -/
theorem Run.carves (run : Run A core σ) (quiet : ∀ u, σ.pc u = .idle) (t : T) {size : Nat} (small : size + sizeofAlloc ≤ maxSmallSize)
    (empty : σ.st.fl (getLockId (core t)) (getIndex (size + sizeofAlloc)) = 0) (noWrap : σ.st.bump + memBlockSize < u64)
    (room : σ.st.bump + memBlockSize < A.endAddr) :
    ∃ σ', Run A core σ' ∧ (∀ u, σ'.pc u = .idle) ∧
      σ'.st.fl (getLockId (core t)) (getIndex (size + sizeofAlloc)) = σ.st.bump + getSize (size + sizeofAlloc) ∧
      σ'.live = ⟨σ.st.bump, size, getSize (size + sizeofAlloc), getLockId (core t)⟩ :: σ.live := by
  have bound := getIndex_lt (request_pos size) small
  have class' : getIndex (getSize (size + sizeofAlloc)) = getIndex (size + sizeofAlloc) := by
    rw [getSize_eq, getIndex_classSize bound]
  have request : size + sizeofAlloc < u64 := Nat.lt_of_le_of_lt small (by decide)
  have extended := run.step (.map (t := t) (quiet t) request small (by rw [class']; exact empty) noWrap (doMmap_some noWrap room))
  have carved := extended.step (.refill (t := t) (Function.update_self ..))
  obtain ⟨σ', run', quiet', fl, live⟩ := carved.finishes (t := t) (Function.update_self ..)
    (Sys.goto_one (Sys.goto_one fun u => Or.inl (quiet u)))
  refine ⟨σ', run', quiet', ?_, live⟩
  rw [fl, getSize_eq]
  obtain ⟨m', refilled, _⟩ := @smallRefill_spec { σ.st with bump := σ.st.bump + memBlockSize } σ.st.bump _ (getLockId (core t)) bound
  simp only [refilled, State.setList, and_self, if_true]

/-- One with a block on the list. -/
theorem Run.takes (run : Run A core σ) (quiet : ∀ u, σ.pc u = .idle) (t : T) {size : Nat} (small : size + sizeofAlloc ≤ maxSmallSize)
    (listed : σ.st.fl (getLockId (core t)) (getIndex (size + sizeofAlloc)) ≠ 0) :
    ∃ σ', Run A core σ' ∧ (∀ u, σ'.pc u = .idle) ∧
      σ'.live = ⟨σ.st.fl (getLockId (core t)) (getIndex (size + sizeofAlloc)), size, getSize (size + sizeofAlloc), getLockId (core t)⟩ ::
        σ.live := by
  have bound := getIndex_lt (request_pos size) small
  have class' : getIndex (getSize (size + sizeofAlloc)) = getIndex (size + sizeofAlloc) := by
    rw [getSize_eq, getIndex_classSize bound]
  have request : size + sizeofAlloc < u64 := Nat.lt_of_le_of_lt small (by decide)
  obtain ⟨st', taken⟩ : ∃ st', smallTake σ.st (getSize (size + sizeofAlloc)) (getLockId (core t)) =
      some (σ.st.fl (getLockId (core t)) (getIndex (size + sizeofAlloc)), st') := by
    simp [smallTake, class', getLockId_lt, listed]
  have took := run.step (.take (t := t) (quiet t) request small taken)
  obtain ⟨σ', run', quiet', _, live⟩ := took.finishes (t := t) (Function.update_self ..) (Sys.goto_one fun u => Or.inl (quiet u))
  exact ⟨σ', run', quiet', live⟩

/-- A `bi_free` of a small block, by any thread. -/
theorem Run.frees (run : Run A core σ) (quiet : ∀ u, σ.pc u = .idle) (t : T) {o : Alloc} (live : o ∈ σ.live)
    (small : o.need ≤ maxSmallSize) :
    ∃ σ', Run A core σ' ∧ (∀ u, σ'.pc u = .idle) ∧ σ'.st.fl o.lid (getIndex o.need) = o.block ∧ σ'.live = σ.live.erase o := by
  obtain ⟨chain, kept⟩ := run.kept
  obtain ⟨size, lid, enough, classed⟩ := kept.live o live
  obtain ⟨valid, ⟨idx, bound, need⟩, _⟩ := classed small
  have sized : σ.st.mem (blockStart (blockRet o.block) + offSize) ≠ 0 := by
    rw [blockStart_blockRet, size]
    have pos := request_pos o.size
    omega
  have read := run.step (.free (t := t) (quiet t) live sized)
  simp only [blockStart_blockRet, size, lid, if_pos small] at read
  have freed := @smallFree_classed σ.st o.block idx o.lid bound valid
  have pushed := read.step (.push (t := t) (Function.update_self ..) (by rw [blockStart_blockRet, need]; exact freed))
  refine ⟨_, pushed, Sys.goto_quiet (Sys.goto_one fun u => Or.inl (quiet u)), ?_, rfl⟩
  rw [need, getIndex_classSize bound]
  simp only [State.setList, and_self, if_true]

end

/-- A malloc area that is not large. -/
def smallArea : Area where
  start := 2 ^ 40
  start_pos := by decide
  fits := by decide

/-- Two threads, on different cores. -/
def twoCores : Bool → Fin numCorePerNode
  | true => ⟨0, by decide⟩
  | false => ⟨1, by decide⟩

/-- The first thread obtains two blocks, the second of them from the list. The other thread frees the first block, which goes back to
the list of the first thread, and is what that thread obtains next. -/
theorem bi_malloc_correct_reused : ∃ σ : Sys Bool, ∃ o o', σ.live = [o, o'] ∧ o.block = smallArea.start ∧ o.size = 20 ∧
    o'.block = smallArea.start + 64 ∧ Run smallArea twoCores σ ∧ Correct smallArea twoCores σ := by
  have small : 10 + sizeofAlloc ≤ maxSmallSize ∧ 20 + sizeofAlloc ≤ maxSmallSize := by decide
  have index : getIndex (10 + sizeofAlloc) = 0 ∧ getIndex (20 + sizeofAlloc) = 0 := by
    constructor
    · rw [getIndex_eq (by decide) small.1]
      decide
    · rw [getIndex_eq (by decide) small.2]
      decide
  have size : getSize (10 + sizeofAlloc) = 64 := by
    rw [getSize_eq, index.1]
    rfl
  have started : Run smallArea twoCores _ := .init fun _ => 0
  obtain ⟨σ₁, run₁, quiet₁, list₁, live₁⟩ := started.carves (fun _ => rfl) true small.1 rfl (by decide) (by decide)
  have listed₁ : σ₁.st.fl (getLockId (twoCores true)) (getIndex (10 + sizeofAlloc)) ≠ 0 := by
    rw [list₁, size]
    exact Nat.succ_ne_zero _
  obtain ⟨σ₂, run₂, quiet₂, live₂⟩ := run₁.takes quiet₁ true small.1 listed₁
  rw [live₁, list₁, size] at live₂
  have member : (⟨smallArea.start, 10, 64, 0⟩ : Alloc) ∈ σ₂.live := by
    rw [live₂]
    exact List.mem_cons_of_mem _ List.mem_cons_self
  obtain ⟨σ₃, run₃, quiet₃, list₃, live₃⟩ := run₂.frees quiet₂ false member (by decide)
  have index₃ : getIndex 64 = 0 := @getIndex_classSize 0 (by decide)
  have list₄ : σ₃.st.fl (getLockId (twoCores true)) (getIndex (20 + sizeofAlloc)) = smallArea.start := by
    rw [index₃] at list₃
    rw [index.2]
    exact list₃
  have listed₃ : σ₃.st.fl (getLockId (twoCores true)) (getIndex (20 + sizeofAlloc)) ≠ 0 := by
    rw [list₄]
    exact Nat.ne_of_gt smallArea.start_pos
  obtain ⟨σ₄, run₄, _, live₄⟩ := run₃.takes quiet₃ true small.2 listed₃
  have erased : σ₃.live = [⟨smallArea.start + 64, 10, 64, 0⟩] := by
    rw [live₃, live₂]
    decide
  rw [list₄, erased] at live₄
  exact ⟨σ₄, _, _, live₄, rfl, rfl, rfl, run₄, bi_malloc_correct smallArea _ _ run₄⟩

end BiProject.Malloc
