import BiProject.Slab.Lists

/-!
# What the pointer to a returned block does

The only object of a slab is freed while `el` points to the slab. Its block goes through the pool and becomes a slab of
another info, and the next slab of the first info is linked in behind it. The list of the other info runs into that slab,
which is full: an allocation takes from it the object that is live, and counts its free objects down from 0.
-/

namespace BiProject.Slab
set_option autoImplicit false
open BiProject.Lib.ListMem

/-! ## Once around the pool -/

section
variable {L : Layout} {st : State} {g : Books} {k : Nat}

/-- An info that holds no slab has none on either list. -/
theorem held_nil {g : Books} {k : Nat} (none : g.held k = []) : g.fl k = [] ∧ g.el k = [] := List.append_eq_nil_iff.mp none

/-- An info without slabs, alone over a full pool. -/
theorem Kept.alone {free : List Block} (pool : Pool L st.pool free) (all : free.Perm (List.finRange memMgrObjNum)) (notNull : k ≠ 0)
    {objSz : Nat} (holds : HoldsAtLeast 1 objSz) (fits : psSlabObjmemsz objSz < memMgrObjSz)
    (info : st.infos k = { fl := 0, el := 0, nodeid := L.nodeId, objSz := objSz, nslabs := 0 }) :
    Kept L ⟨st, [k], []⟩ ((⟨fun _ => [], fun _ => [], fun _ => [], free⟩ : Books).begin k) := by
  have same : st.setInfo k { fl := 0, el := 0, nodeid := L.nodeId, objSz := objSz, nslabs := 0 } = st := by
    rw [State.setInfo, ← info, Function.update_eq_self]
  have kept : Kept L ⟨st, [], []⟩ _ := Kept.empty pool all
  refine kept.create List.not_mem_nil notNull holds ?_
  rw [biSlabCreate_passed st fits, same]

/-- An info of two objects to a slab that has no slabs takes an object from the first block of the pool and gives it back: the block
is the last one then. -/
theorem Kept.turn (kept : Kept L ⟨st, [k], []⟩ g) (none : g.fl k = []) (two : biSlabNobjs (st.infos k).objSz = 2) {b : Block}
    {free : List Block} (first : g.free = b :: free) :
    ∃ p st₁ st₂ g', biSlabAlloc L st k 0 = some (p, st₁) ∧ biSlabFree L st₁ p = some st₂ ∧
      (∀ i, i ≠ k → st₂.infos i = st.infos i) ∧ (st₂.infos k).objSz = (st.infos k).objSz ∧ Kept L ⟨st₂, [k], []⟩ g' ∧
      g'.fl k = [] ∧ g'.el k = g.el k ∧ g'.free = free ++ [b] := by
  have source : g.Source (st.infos k).objSz k b [0, 1] [] free := by
    have new : g.Source (st.infos k).objSz k b (List.range (biSlabNobjs (st.infos k).objSz)) [] free := .new none first
    rwa [two] at new
  obtain ⟨st₁, xs, ys, alloc, taken, others, sizes, _, place, kept₁⟩ := kept.alloc_spec List.mem_cons_self source 0
  obtain ⟨rfl, rfl⟩ : xs = [b] ∧ ys = g.el k := by simpa [Taken] using taken
  generalize psMheadMem (L.header (Sys.objSz ⟨st, [k], []⟩ k) b 0) = p at alloc place kept₁
  have alone : (g.update k b [b] (g.el k) [1] free).fl k = [] ++ b :: [] := by simp
  obtain ⟨st₂, freed, others', sizes', kept₂⟩ := kept₁.free_last List.mem_cons_self place alone
    (by simp [Sys.nobjs, Sys.objSz, sizes, two])
  simp only [List.erase_cons_head] at kept₂
  exact ⟨p, st₁, st₂, _, alloc, freed, fun i differ => (others' i differ).trans (others i differ),
    (sizes' k).trans (sizes k), kept₂, by simp, by simp, by simp⟩

/-- Turn after turn, the blocks `front` go to the end of the pool. -/
theorem turns (front : List Block) {free : List Block} {st : State} {g : Books} (run : Run L 1 (fun _ _ => True) ⟨st, [2, 1], []⟩)
    (kept : Kept L ⟨st, [2], []⟩ g) (none : g.fl 2 = [] ∧ g.el 2 = []) (two : biSlabNobjs (st.infos 2).objSz = 2)
    (split : g.free = front ++ free) :
    ∃ st' g', Run L 1 (fun _ _ => True) ⟨st', [2, 1], []⟩ ∧ Kept L ⟨st', [2], []⟩ g' ∧ (g'.fl 2 = [] ∧ g'.el 2 = []) ∧
      g'.free = free ++ front ∧ st'.infos 1 = st.infos 1 ∧ (st'.infos 2).objSz = (st.infos 2).objSz := by
  induction front generalizing st g free with
  | nil => exact ⟨st, g, run, kept, none, by simpa using split, rfl, rfl⟩
  | cons b front ih =>
    have first : g.free = b :: (front ++ free) := split
    obtain ⟨p, st₁, st₂, g₂, alloc, freed, others, size, kept₂, noFl, noEl, free₂⟩ := kept.turn none.1 two first
    have run₁ : Run L 1 (fun _ _ => True) ⟨st₁, [2, 1], [⟨p, 2⟩]⟩ := run.step (.alloc (by simp) alloc)
    have run₂ : Run L 1 (fun _ _ => True) ⟨st₂, [2, 1], []⟩ := by
      have next := run₁.step (.free List.mem_cons_self trivial freed)
      simpa only [List.erase_cons_head] using next
    obtain ⟨st', g', run', kept', none', free', info, size'⟩ :=
      ih run₂ kept₂ ⟨noFl, noEl.trans none.2⟩ (by rw [size]; exact two) (by rw [free₂, List.append_assoc])
    exact ⟨st', g', run', kept', none', by rw [free', List.append_assoc]; rfl, info.trans (others 1 (by decide)), size'.trans size⟩

end

/-! ## The calls that go wrong -/

section
variable {L : Layout} {st : State} {k k' objSz : Nat} {b b' : Block}

/-- A slab whose list has a first slab is picked as it is. -/
theorem psSlabPick_first (first : (st.infos k).fl = L.block b) :
    psSlabPick L st k memMgrObjSz sizeofPsSlab = some (L.block b, st) := by
  rw [psSlabPick, if_neg (by rw [first]; exact L.block_pos b), first]
  rfl

/-- An info of one object to a slab, whose `el` points to a slab `b` of another info, takes the next block of the pool: it is
linked into the list of `b`. -/
theorem alloc_behind {rest : List Block} {size : Nat} {F : List Nat} (info : st.infos k = ⟨0, L.block b, L.nodeId, objSz, 0⟩)
    (holds : HoldsAtLeast 1 objSz) (one : biSlabNobjs objSz = 1) (pool : Pool L st.pool (b' :: rest)) (differ : b ≠ b')
    (ring : Ring L.slabNodes st.mem [b]) (geo : Geometry size) (slab : SlabAt L st.mem k' size b F) :
    ∃ st', biSlabAlloc L st k 0 = some (psMheadMem (L.header objSz b' 0), st') ∧ (∀ i, i ≠ k → st'.infos i = st.infos i) ∧
      (st'.infos k).objSz = objSz ∧ Ring L.slabNodes st'.mem [b, b'] ∧ SlabAt L st'.mem k' size b F ∧ SlabAt L st'.mem k objSz b' [] ∧
      st'.mem (L.block b' + offFreelist) = L.header objSz b' 0 := by
  have own := holds.geometry
  have far := L.block_apart differ
  simp only [memMgrObjSz] at far
  obtain ⟨m₁, pool₁, pick, _, slab₁, fl₁, only, out⟩ := psSlabPick_new own (by rw [info]) (by rw [info]) pool
  rw [one] at slab₁
  have ring₁ : Ring L.slabNodes m₁ [b] := by
    refine ring.frame fun a member => ?_
    obtain rfl := List.mem_singleton.mp member
    simp only [Layout.slabNodes, offList, memMgrObjSz] at out ⊢
    exact ⟨out _ (by omega), out _ (by omega)⟩
  generalize after : ({ st with mem := m₁, pool := pool₁ }.setInfo k
    { st.infos k with fl := L.block b', nslabs := incr (st.infos k).nslabs } : State) = st₁ at pick
  have mem₁ : st₁.mem = m₁ := by rw [← after]; rfl
  have info₁ : st₁.infos k = ⟨L.block b', L.block b, L.nodeId, objSz, incr 0⟩ := by
    rw [← after, info]
    exact Function.update_self _ _ _
  have others : ∀ i, i ≠ k → st₁.infos i = st.infos i := by
    intro i other
    rw [← after]
    exact Function.update_of_ne other _ _
  rw [← mem₁] at slab₁ fl₁ ring₁
  obtain ⟨m₂, f, e, xs, ys, take, taken, _, el₂, slab₂, freelist, same⟩ := psSlabTake_spec own slab₁ (by rw [info₁]; exact fl₁)
    (by rw [info₁]; exact ⟨ring₁, (L.first_cons b []).symm⟩) (by simpa using differ) 0
  obtain ⟨rfl, ys, rfl, perm⟩ : xs = [] ∧ ∃ ys', ys = b' :: ys' ∧ ys'.Perm [b] := by simpa [Taken] using taken
  obtain rfl := List.perm_singleton.mp perm
  refine ⟨_, (biSlabAlloc_passed (by rw [info]) (by rw [info]; exact holds) pick 0).trans take, fun i other => ?_, ?_, ?_, ?_, slab₂, ?_⟩
  · exact (Function.update_of_ne other _ _).trans (others i other)
  · simp [State.setInfo, info₁]
  · exact el₂.ring.rotate
  · refine slab.frame fun x here => ?_
    obtain ⟨low, high, _⟩ := here.inside geo
    simp only [memMgrObjSz] at high
    refine (same x (by simp only [memMgrObjSz]; omega) (here.noLink geo)).trans ?_
    rw [mem₁]
    exact out x (by simp only [memMgrObjSz]; omega)
  · refine freelist.trans ?_
    rw [mem₁]
    exact only one

/-- The last object of `b` is taken: its list goes on with `b'`. -/
theorem alloc_exposes {size j : Nat} (info : (st.infos k').fl = L.block b ∧ (st.infos k').el = 0 ∧ (st.infos k').nodeid = L.nodeId)
    (holds : HoldsAtLeast 1 (st.infos k').objSz) (differ : b ≠ b') (ring : Ring L.slabNodes st.mem [b, b'])
    (slab : SlabAt L st.mem k' (st.infos k').objSz b [j]) (geo : Geometry size) (full : SlabAt L st.mem k size b' []) :
    ∃ st', biSlabAlloc L st k' 0 = some (psMheadMem (L.header (st.infos k').objSz b j), st') ∧
      (st'.infos k').fl = L.block b' ∧ (st'.infos k').nodeid = L.nodeId ∧ (st'.infos k').objSz = (st.infos k').objSz ∧
      (∀ i, i ≠ k' → st'.infos i = st.infos i) ∧ SlabAt L st'.mem k size b' [] ∧
      st'.mem (L.block b' + offFreelist) = st.mem (L.block b' + offFreelist) := by
  have far := L.block_apart differ
  simp only [memMgrObjSz] at far
  obtain ⟨m', f, e, xs, ys, take, taken, fl, _, _, _, same⟩ := psSlabTake_spec holds.geometry slab
    ⟨ring, by rw [info.1, L.first_cons]⟩ (⟨⟨trivial, List.nodup_nil⟩, info.2.1⟩ : SlabList L st.mem (st.infos k').el [])
    (by simp) 0
  obtain ⟨rfl, -⟩ : xs = [b'] ∧ _ := by simpa [Taken] using taken
  have other : ∀ x, Meta L size b' x → m' x = st.mem x := by
    intro x here
    obtain ⟨low, high, _⟩ := here.inside geo
    simp only [memMgrObjSz] at high
    exact same x (by simp only [memMgrObjSz]; omega) (here.noLink geo)
  refine ⟨_, (biSlabAlloc_passed info.2.2 holds (psSlabPick_first info.1) 0).trans take, ?_, ?_, ?_, ?_, full.frame other, ?_⟩
  · simpa [State.setInfo] using fl.head
  · simpa [State.setInfo] using info.2.2
  · simp [State.setInfo]
  · exact fun i differ => Function.update_of_ne differ _ _
  · exact other _ (Or.inl ⟨offFreelist, by simp, rfl⟩)

/-- From a full slab the object whose header `freelist` still has is handed out again, and `nfree` wraps. -/
theorem alloc_below_zero {size : Nat} (info : (st.infos k').fl = L.block b ∧ (st.infos k').nodeid = L.nodeId)
    (holds : HoldsAtLeast 1 (st.infos k').objSz) (full : SlabAt L st.mem k size b [])
    (freelist : st.mem (L.block b + offFreelist) = L.header size b 0) :
    ∃ st', biSlabAlloc L st k' 0 = some (psMheadMem (L.header size b 0), st') ∧ st'.mem (L.block b + offNfree) = u64 - 1 := by
  have count : st.mem (L.block b + offNfree) = 0 := full.nfree
  have header : L.header size b 0 = L.block b + 128 := by simp [Layout.header, sizeofPsSlab]
  generalize taken : psMheadReset (store (store st.mem (L.block b + offFreelist) (st.mem (L.header size b 0 + offNext)))
    (L.block b + offNfree) (decr 0)) (L.header size b 0) 0 = m
  have wrapped : m (L.block b + offNfree) = u64 - 1 := by
    rw [← taken, header, psMheadReset, store_other (by simp [offNfree, offType]), store_other (by simp [offNfree, offNext]), store_same]
    rfl
  refine ⟨{ st with mem := m }, (biSlabAlloc_passed info.2 holds (psSlabPick_first info.1) 0).trans ?_, wrapped⟩
  have skipped : store st.mem (L.block b + offFreelist) (st.mem (L.header size b 0 + offNext)) (L.block b + offNfree) = 0 := by
    rw [store_other (by simp [offNfree, offFreelist]), count]
  have positive : L.header size b 0 ≠ 0 := by omega
  have notZero : u64 - 1 ≠ 0 := by decide
  simp only [psSlabTake, freelist, L.block_pos, positive, guard, ne_eq, not_false_iff, and_self, if_true, skipped, taken, wrapped, notZero,
    if_false, Option.pure_def, Option.bind_eq_bind, Option.bind_some]

end

/-! ## The run -/

/-- Its only object allocated and freed, a slab is back in the pool and `el` still points to it. -/
theorem exists_dangling (L : Layout) :
    ∃ (st : State) (g : Books) (b : Block) (rest : List Block), Run L 1 (fun _ _ => True) ⟨st, [2, 1], []⟩ ∧
      Kept L ⟨st, [2], []⟩ g ∧ (g.fl 2 = [] ∧ g.el 2 = []) ∧
      g.free = rest ++ [b] ∧ rest ≠ [] ∧ st.infos 1 = ⟨0, L.block b, L.nodeId, 600000, 0⟩ ∧ (st.infos 2).objSz = 500000 := by
  have one : HoldsAtLeast 1 600000 := ⟨by decide, by rw [biSlabNobjs_large]⟩
  have two : HoldsAtLeast 1 500000 := ⟨by decide, by rw [biSlabNobjs_two]; decide⟩
  obtain ⟨st, g, b, b', rest, run, kept, noneA, noneC, free, infoA, infoC⟩ :=
    exists_two_infos L one two (Nat.le_refl 1) (by rw [psSlabObjmemsz_large]; decide) (by rw [psSlabObjmemsz_two]; decide) fun _ _ => True
  have size : (st.infos 1).objSz = 600000 := by rw [infoA]
  have source : g.Source (st.infos 1).objSz 1 b [0] [] (b' :: rest) := by
    have new : g.Source (st.infos 1).objSz 1 b (List.range (biSlabNobjs (st.infos 1).objSz)) [] (b' :: rest) :=
      .new (held_nil noneA).1 free
    rwa [size, biSlabNobjs_large, ← size] at new
  obtain ⟨st₁, xs, ys, alloc, taken, others, sizes, _, place, kept₁⟩ := kept.alloc_spec (by simp) source 0
  obtain ⟨rfl, rfl⟩ : xs = [] ∧ ys = [b] := by simpa [Taken, (held_nil noneA).2] using taken
  generalize psMheadMem (L.header (Sys.objSz ⟨st, [2, 1], []⟩ 1) b 0) = p at alloc place kept₁
  have run₁ : Run L 1 (fun _ _ => True) ⟨st₁, [2, 1], [⟨p, 1⟩]⟩ := run.step (.alloc (by simp) alloc)
  have single : biSlabNobjs (st₁.infos 1).objSz = 1 := by
    rw [show (st₁.infos 1).objSz = 600000 from (sizes 1).trans size, biSlabNobjs_large]
  have info₁ := kept₁.info 1 (by simp)
  have infoA₁ : st₁.infos 1 = ⟨0, L.block b, L.nodeId, 600000, 1⟩ := by
    have fl := info₁.fl.head
    have el := info₁.el.head
    have nslabs := info₁.nslabs
    have home := info₁.home
    simp at fl el nslabs home
    have whole : (st₁.infos 1).objSz = 600000 := (sizes 1).trans size
    generalize st₁.infos 1 = info at fl el nslabs home whole
    cases info
    simp_all
  obtain ⟨m, _, _, _, freed, _⟩ := kept₁.free_only List.mem_cons_self place single
  generalize after : (({ st₁ with mem := m, pool := memMgrFree L st₁.pool (L.item b) } : State).setInfo 1
    { st₁.infos 1 with nslabs := decr (st₁.infos 1).nslabs }) = st₂ at freed
  have run₂ : Run L 1 (fun _ _ => True) ⟨st₂, [2, 1], []⟩ := by
    have next := run₁.step (.free List.mem_cons_self trivial freed)
    simpa only [List.erase_cons_head] using next
  have pool : Pool L st₂.pool (b' :: rest ++ [b]) := by
    rw [← after]
    exact kept₁.pool.freed (kept₁.not_free (by simp : 1 ∈ [2, 1]) place.1)
  have all : (b' :: rest ++ [b]).Perm (List.finRange memMgrObjNum) := by
    have once := kept.once
    rw [free] at once
    simp only [List.flatMap_cons, noneA, noneC, List.flatMap_nil, List.append_nil] at once
    exact (List.perm_append_singleton b (b' :: rest)).trans once
  have infoC₂ : st₂.infos 2 = ⟨0, 0, L.nodeId, 500000, 0⟩ := by
    rw [← after]
    exact (State.setInfo_of_ne _ _ (by decide)).trans ((others 2 (by decide)).trans infoC)
  have kept₂ := Kept.alone pool all (by decide) two (by rw [psSlabObjmemsz_two]; decide) infoC₂
  refine ⟨st₂, _, b, b' :: rest, run₂, kept₂, ⟨?_, ?_⟩, rfl, by simp, ?_, by rw [infoC₂]⟩
  · simp [Books.begin]
  · simp [Books.begin]
  · rw [← after]
    refine (State.setInfo_self _ _ _).trans ?_
    have returned : decr 1 = 0 := by decide
    simp only [infoA₁, returned]

/-- **A free count below zero.** The only object of a slab is freed while `el` points to the slab; when the slab's block is in use again,
the next allocation of that info links its slab in behind, and the list of the block's new info runs into it. -/
theorem nfree_below_zero (L : Layout) :
    ∃ σ, Run L 1 (fun _ _ => True) σ ∧ (∀ si ∈ σ.infos, HoldsAtLeast 1 (σ.objSz si)) ∧
      ∃ si ∈ σ.infos, ∃ s p st', psSlabPick L σ.st si memMgrObjSz sizeofPsSlab = some (s, σ.st) ∧ σ.st.mem (s + offNfree) = 0 ∧
        biSlabAlloc L σ.st si 0 = some (p, st') ∧ st'.mem (s + offNfree) = u64 - 1 ∧ ∃ o ∈ σ.live, o.addr = p := by
  obtain ⟨st, g, b, rest, run, kept, none, free, some, infoA, size⟩ := exists_dangling L
  have two : biSlabNobjs (st.infos 2).objSz = 2 := by rw [size, biSlabNobjs_two]
  have one : HoldsAtLeast 1 600000 := ⟨by decide, by rw [biSlabNobjs_large]⟩
  -- the pool goes round, and the block is its first one
  obtain ⟨st₁, g₁, run₁, kept₁, none₁, free₁, infoA₁, size₁⟩ := turns rest run kept none two free
  have two₁ : biSlabNobjs (st₁.infos 2).objSz = 2 := by rw [size₁, two]
  have source : g₁.Source (st₁.infos 2).objSz 2 b [0, 1] [] rest := by
    have new : g₁.Source (st₁.infos 2).objSz 2 b (List.range (biSlabNobjs (st₁.infos 2).objSz)) [] rest := .new none₁.1 free₁
    rwa [two₁] at new
  obtain ⟨st₂, xs, ys, alloc₂, taken, others₂, sizes₂, _, _, kept₂⟩ := kept₁.alloc_spec List.mem_cons_self source 0
  obtain ⟨rfl, rfl⟩ : xs = [b] ∧ ys = [] := by simpa [Taken, none₁.2] using taken
  have run₂ := run₁.step (.alloc (by simp) alloc₂)
  have info₂ := kept₂.info 2 List.mem_cons_self
  have slab₂ := info₂.slab b (by simp)
  have fl₂ := info₂.fl
  have el₂ := info₂.el.head
  simp only [Books.update_fl, Books.update_el, Books.update_avail, L.first_nil] at slab₂ fl₂ el₂
  -- the next block is linked in behind it
  obtain ⟨b', rest, rfl⟩ := List.exists_cons_of_ne_nil some
  have pool₂ : Pool L st₂.pool (b' :: rest) := kept₂.pool
  have differ : b ≠ b' := by
    rintro rfl
    have distinct := kept₁.pool.nodup
    rw [free₁] at distinct
    exact absurd distinct (by simp)
  have infoA₂ : st₂.infos 1 = ⟨0, L.block b, L.nodeId, 600000, 0⟩ := (others₂ 1 (by decide)).trans (infoA₁.trans infoA)
  obtain ⟨st₃, alloc₃, others₃, sizeA₃, ring₃, slab₃, full₃, freelist₃⟩ :=
    alloc_behind infoA₂ one biSlabNobjs_large pool₂ differ fl₂.ring info₂.geometry slab₂
  have run₃ := run₂.step (.alloc (by simp) alloc₃)
  have same₃ : st₃.infos 2 = st₂.infos 2 := others₃ 2 (by decide)
  -- and is the first one when the object of the block is taken
  have info₃ : (st₃.infos 2).fl = L.block b ∧ (st₃.infos 2).el = 0 ∧ (st₃.infos 2).nodeid = L.nodeId := by
    rw [same₃]
    exact ⟨fl₂.head, el₂, info₂.home⟩
  obtain ⟨st₄, alloc₄, fl₄, home₄, size₄, others₄, full₄, freelist₄⟩ :=
    alloc_exposes info₃ (by rw [same₃]; exact info₂.holds) differ ring₃ (by rw [same₃]; exact slab₃) one.geometry full₃
  have run₄ := run₃.step (.alloc (by simp) alloc₄)
  obtain ⟨st₅, alloc₅, wrapped⟩ := alloc_below_zero ⟨fl₄, home₄⟩ (by rw [size₄, same₃]; exact info₂.holds) full₄
    (freelist₄.trans freelist₃)
  refine ⟨_, run₄, ?_, 2, by simp, _, _, _, psSlabPick_first fl₄, full₄.nfree, alloc₅, wrapped,
    ⟨psMheadMem (L.header 600000 b' 0), 1⟩, by simp, rfl⟩
  intro si member
  simp only [List.mem_cons, List.not_mem_nil, or_false] at member
  rcases member with rfl | rfl
  · rw [Sys.objSz, size₄, same₃]
    exact info₂.holds
  · rw [Sys.objSz, others₄ 1 (by decide), sizeA₃]
    exact one

end BiProject.Slab
