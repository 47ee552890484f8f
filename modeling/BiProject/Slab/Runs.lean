import BiProject.Slab.Allocator

/-!
# Runs of the slab allocator

The invariant holds in every state of every run, and with it what the allocator is for: live objects that
overlap neither each other nor a slab header, counts that are right, and blocks that are each in one place.
-/

namespace BiProject.Slab
set_option autoImplicit false
open BiProject.Lib.ListMem

section
variable {L : Layout} {σ : Sys} {g : Books} {si : Nat}

/-! ## Creating an info -/

/-- The books with an info that has no slabs. -/
def Books.begin (g : Books) (si : Nat) : Books :=
  { g with fl := Function.update g.fl si [], el := Function.update g.el si [] }

theorem Books.begin_held_self (g : Books) (si : Nat) : (g.begin si).held si = [] := by simp [Books.held, Books.begin]

theorem Books.begin_held_of_ne (g : Books) (si : Nat) {k : Nat} (differ : k ≠ si) : (g.begin si).held k = g.held k := by
  simp [Books.held, Books.begin, Function.update_of_ne differ]

theorem Books.begin_avail (g : Books) (si : Nat) : (g.begin si).avail = g.avail := rfl

/-- `bi_slab_create` with a size whose objects fit. -/
theorem biSlabCreate_passed (st : State) {objSz : Nat} (fits : psSlabObjmemsz objSz < memMgrObjSz) :
    biSlabCreate L st si objSz = some (st.setInfo si { fl := 0, el := 0, nodeid := L.nodeId, objSz := objSz, nslabs := 0 }) := by
  rw [biSlabCreate, show (guard (psSlabObjmemsz objSz < memMgrObjSz) : Option Unit) = some () from if_pos fits,
    Option.bind_eq_bind, Option.bind_some]
  rfl

/-- What it does, -/
theorem biSlabCreate_eq {st st' : State} {objSz : Nat} (run : biSlabCreate L st si objSz = some st') :
    st' = st.setInfo si { fl := 0, el := 0, nodeid := L.nodeId, objSz := objSz, nslabs := 0 } := by
  by_cases fits : psSlabObjmemsz objSz < memMgrObjSz
  · rw [biSlabCreate_passed st fits] at run
    exact (Option.some.inj run).symm
  · rw [biSlabCreate, show (guard (psSlabObjmemsz objSz < memMgrObjSz) : Option Unit) = none from if_neg fits] at run
    cases run

/-- which keeps the invariant. -/
theorem Kept.create (kept : Kept L σ g) {objSz : Nat} {st' : State} (new : si ∉ σ.infos) (notNull : si ≠ 0)
    (holds : HoldsAtLeast 1 objSz) (run : biSlabCreate L σ.st si objSz = some st') :
    Kept L ⟨st', si :: σ.infos, σ.live⟩ (g.begin si) := by
  have after := biSlabCreate_eq run
  have infoAfter : st'.infos si = { fl := 0, el := 0, nodeid := L.nodeId, objSz := objSz, nslabs := 0 } := by
    rw [after]
    exact Function.update_self _ _ _
  have other : ∀ k ∈ σ.infos, k ≠ si := by
    rintro k member rfl
    exact new member
  have others : ∀ k, k ≠ si → st'.infos k = σ.st.infos k := by
    intro k differ
    rw [after]
    exact Function.update_of_ne differ _ _
  have mem : st'.mem = σ.st.mem := by rw [after]; rfl
  have empty : SlabList L st'.mem 0 [] := ⟨⟨trivial, List.nodup_nil⟩, rfl⟩
  have none : (g.begin si).held si = [] := g.begin_held_self si
  refine ⟨⟨?_, List.nodup_cons.mpr ⟨new, kept.nodup⟩, fun k member => ?_, ?_⟩, kept.live, fun o => ?_⟩
  · rw [after]
    exact kept.pool
  · rcases List.mem_cons.mp member with rfl | old
    · refine ⟨notNull, by rw [infoAfter], by rw [infoAfter]; exact holds, ?_, ?_, ?_, ?_, ?_, ?_⟩
      · simpa [infoAfter, Books.begin] using empty
      · simpa [infoAfter, Books.begin] using empty
      · simp [none]
      · simp [Books.begin]
      · simp [Books.begin]
      · simp [infoAfter, none]
    · have differ := other k old
      refine (kept.info k old).frame (others k differ) (Function.update_of_ne differ _ _) (Function.update_of_ne differ _ _)
        (fun _ _ => rfl) (fun _ _ x _ => by rw [mem]) fun a _ => by rw [mem]; exact ⟨rfl, rfl⟩
  · rw [List.flatMap_cons, none, List.nil_append]
    have same : σ.infos.flatMap (g.begin si).held = σ.infos.flatMap g.held :=
      List.flatMap_congr fun k member => g.begin_held_of_ne si (other k member)
    rw [same]
    exact kept.once
  · rw [kept.objects o]
    by_cases here : o.si = si
    · simp [here, new, Books.Uses, none]
    · simp [here, Books.Uses, g.begin_held_of_ne si here, others _ here, g.begin_avail]

/-! ## Writes of the users -/

/-- The words the invariant speaks of in a slab. -/
def Fixed (L : Layout) (objSz : Nat) (b : Block) (x : Nat) : Prop :=
  Meta L objSz b x ∨ x = L.slabNodes.addr b ∨ x = L.slabNodes.addr b + 8

/-- They lie in the block, and not in the memory of an object behind its header. -/
theorem Fixed.apart {objSz x : Nat} {b : Block} (geo : Geometry objSz) (here : Fixed L objSz b x) :
    L.block b ≤ x ∧ x + 8 ≤ L.block b + memMgrObjSz ∧ ∀ j < biSlabNobjs objSz,
      x + 8 ≤ psMheadMem (L.header objSz b j) ∨ L.header objSz b j + psSlabObjmemsz objSz ≤ x := by
  have line := geo.line
  have inside := geo.inside
  -- a word of the slab header is before all objects
  have early : ∀ off, off ≤ 88 → L.block b ≤ L.block b + off ∧ L.block b + off + 8 ≤ L.block b + memMgrObjSz ∧
      ∀ j < biSlabNobjs objSz, L.block b + off + 8 ≤ psMheadMem (L.header objSz b j) ∨
        L.header objSz b j + psSlabObjmemsz objSz ≤ L.block b + off := by
    intro off small
    refine ⟨by omega, by simp only [memMgrObjSz]; omega, fun j bound => Or.inl ?_⟩
    have low := (geo.header_inside L b bound).1
    simp only [sizeofPsSlab] at low
    simp only [psMheadMem, sizeofPsMheader]
    omega
  -- a word of an object header is in no other object
  have header : ∀ off, off ≤ 16 → ∀ i < biSlabNobjs objSz, L.block b ≤ L.header objSz b i + off ∧
      L.header objSz b i + off + 8 ≤ L.block b + memMgrObjSz ∧ ∀ j < biSlabNobjs objSz,
        L.header objSz b i + off + 8 ≤ psMheadMem (L.header objSz b j) ∨
          L.header objSz b j + psSlabObjmemsz objSz ≤ L.header objSz b i + off := by
    intro off small i bound
    obtain ⟨low, high⟩ := geo.header_inside L b bound
    refine ⟨by omega, by omega, fun j bound' => ?_⟩
    simp only [psMheadMem, sizeofPsMheader]
    rcases Nat.lt_or_ge j i with less | greater
    · have before := L.header_lt objSz b less
      omega
    · left
      rcases Nat.eq_or_lt_of_le greater with rfl | later
      · omega
      · have after := L.header_lt objSz b later
        omega
  rcases here with (⟨off, member, rfl⟩ | ⟨j, bound, rfl | rfl⟩) | rfl | rfl
  · refine early off ?_
    simp only [List.mem_cons, List.not_mem_nil, or_false, offMemory, offMemItem, offSi, offFreelist, offNfree] at member
    omega
  · exact header offSlab (by decide) j bound
  · exact header offNext (by decide) j bound
  · exact early offList (by decide)
  · exact early (offList + 8) (by decide)

/-- A list has its blocks in one order. -/
theorem Pool.unique {m : Mem} {free free' : List Block} (pool : Pool L m free) (pool' : Pool L m free') : free = free' :=
  List.map_injective_iff.mpr (Option.some_injective _) (pool.ring.unique pool'.ring)

/-- The users do not reach the words of the slabs. -/
theorem Kept.not_writable (kept : Kept L σ g) (created : si ∈ σ.infos) {b : Block} (slab : b ∈ g.held si) {x : Nat}
    (here : Fixed L (σ.st.infos si).objSz b x) : ¬ σ.Writable L x := by
  obtain ⟨low, high, objects⟩ := here.apart (kept.info si created).geometry
  rintro (⟨o, live, after, before⟩ | ⟨free, pool, a, pooled, after, before⟩)
  · obtain ⟨known, a, j, onSlab, bound, _, addr⟩ := (kept.objects o).mp live
    have geo := (kept.info _ known).geometry
    have object := geo.object
    obtain ⟨lowO, highO⟩ := geo.header_inside L a bound
    have ends : o.addr + σ.objSz o.si ≤ L.header (σ.st.infos o.si).objSz a j + psSlabObjmemsz (σ.st.infos o.si).objSz := by
      rw [addr, Sys.objSz, psMheadMem]
      omega
    by_cases same : a = b
    · subst same
      have owner := kept.owner_unique known created onSlab slab
      rw [owner] at bound addr ends before
      have far := objects j bound
      omega
    · have far := L.block_apart same
      simp only [psMheadMem] at addr
      omega
  · rw [pool.unique kept.pool] at pooled
    have differ : a ≠ b := by
      rintro rfl
      exact kept.not_free created slab pooled
    have far := L.block_apart differ
    omega

/-- So their writes keep the invariant. -/
theorem Kept.write (kept : Kept L σ g) {m' : Mem} (only : ∀ x, m' x ≠ σ.st.mem x → σ.Writable L x) :
    Kept L ⟨{ σ.st with mem := m' }, σ.infos, σ.live⟩ g := by
  have same : ∀ k ∈ σ.infos, ∀ b ∈ g.held k, ∀ x, Fixed L (σ.st.infos k).objSz b x → m' x = σ.st.mem x := by
    intro k created b slab x here
    by_contra differ
    exact kept.not_writable created slab here (only x differ)
  refine ⟨⟨kept.pool, kept.nodup, fun k created => ?_, kept.once⟩, kept.live, kept.objects⟩
  refine (kept.info k created).frame rfl rfl rfl (fun _ _ => rfl) (fun b slab x here => same k created b slab x (Or.inl here)) ?_
  exact fun b slab => ⟨same k created b slab _ (Or.inr (Or.inl rfl)), same k created b slab _ (Or.inr (Or.inr rfl))⟩

/-! ## Every state of every run -/

/-- Without infos all blocks are in the pool. -/
theorem Kept.empty {st : State} {free : List Block} (pool : Pool L st.pool free) (all : free.Perm (List.finRange memMgrObjNum)) :
    Kept L ⟨st, [], []⟩ ⟨fun _ => [], fun _ => [], fun _ => [], free⟩ := by
  refine ⟨⟨pool, List.nodup_nil, fun _ member => absurd member List.not_mem_nil, ?_⟩, List.nodup_nil, fun o => ?_⟩
  · rwa [List.flatMap_nil, List.append_nil]
  · simp

/-- It holds after `mem_mgr_init`. -/
theorem Kept.start (L : Layout) (m pool : Mem) (infos : Nat → SlabInfo) :
    Kept L ⟨⟨m, memMgrInit L pool, infos⟩, [], []⟩ ⟨fun _ => [], fun _ => [], fun _ => [], List.finRange memMgrObjNum⟩ := by
  have filled := memMgrInit_pool L pool
  generalize all : List.finRange memMgrObjNum = free at filled
  generalize memMgrInit L pool = words at filled
  exact Kept.empty filled (.of_eq all.symm)

/-- Where no slab can be had, the allocation fails. -/
theorem psSlabMemAlloc_fails {st : State} {allocsz headoff tsc : Nat} (pick : psSlabPick L st si allocsz headoff = none) :
    psSlabMemAlloc L st si allocsz headoff tsc = none := by
  simp [psSlabMemAlloc, pick]

/-- With no slab on the freelist and an empty pool an assertion of `mem_mgr_alloc` fails. -/
theorem Kept.pick_fails (kept : Kept L σ g) (created : si ∈ σ.infos) (noSlab : g.fl si = []) (noBlock : g.free = []) :
    psSlabPick L σ.st si memMgrObjSz sizeofPsSlab = none := by
  have empty := kept.pool.empty_iff.mpr noBlock
  have head : (σ.st.infos si).fl = 0 := (kept.info si created).fl.head_eq_zero.mpr noSlab
  have noMem : memMgrAlloc L memMgrObjSz σ.st.pool = none := by
    rw [memMgrAlloc, if_neg]
    simp [empty]
  rw [psSlabPick, if_pos head, psSlabDefalloc, noMem]
  rfl

/-- So `bi_slab_alloc` fails. -/
theorem Kept.alloc_fails (kept : Kept L σ g) (created : si ∈ σ.infos) (noSlab : g.fl si = []) (noBlock : g.free = []) (tsc : Nat) :
    biSlabAlloc L σ.st si tsc = none := by
  rw [biSlabAlloc, psSlabMemAlloc_fails (kept.pick_fails created noSlab noBlock)]
  exact Option.bind_eq_none_iff.mpr fun _ _ => rfl

/-- One step, and what the infos' sizes are after it. -/
theorem Kept.step {n : Nat} {well : Sys → Obj → Prop} {σ' : Sys} (kept : Kept L σ g) (least : 1 ≤ n)
    (sizes : ∀ k ∈ σ.infos, HoldsAtLeast n (σ.objSz k)) (safe : ∀ o ∈ σ.live, well σ o → EmptiesWell σ o)
    (next : Step L n well σ σ') : (∃ g', Kept L σ' g') ∧ ∀ k ∈ σ'.infos, HoldsAtLeast n (σ'.objSz k) := by
  cases next with
  | @create k objSz st' new notNull holds run =>
    refine ⟨⟨_, kept.create new notNull ⟨holds.fits, Nat.le_trans least holds.many⟩ run⟩, fun k' member => ?_⟩
    rw [biSlabCreate_eq run]
    by_cases same : k' = k
    · subst same
      simpa [Sys.objSz, State.setInfo] using holds
    · have old := sizes k' ((List.mem_cons.mp member).resolve_left same)
      simpa [Sys.objSz, State.setInfo, Function.update_of_ne same] using old
  | @alloc k tsc p st' created run =>
    have room : g.fl k ≠ [] ∨ g.free ≠ [] := by
      by_contra neither
      rw [not_or, not_not, not_not] at neither
      have failed := kept.alloc_fails created neither.1 neither.2 tsc
      rw [run] at failed
      cases failed
    obtain ⟨p', st'', g', run', _, same, kept'⟩ := kept.alloc created room tsc
    obtain ⟨rfl, rfl⟩ := Prod.mk.inj (Option.some.inj (run.symm.trans run'))
    refine ⟨⟨g', kept'⟩, fun k' member => ?_⟩
    rw [Sys.objSz, same]
    exact sizes k' member
  | @free o st' live here run =>
    obtain ⟨st'', g', run', same, kept'⟩ := kept.free live (safe o live here)
    obtain rfl := Option.some.inj (run.symm.trans run')
    refine ⟨⟨g', kept'⟩, fun k' member => ?_⟩
    rw [Sys.objSz, same]
    exact sizes k' member
  | write only => exact ⟨⟨g, kept.write only⟩, sizes⟩

/-- **Every run keeps the invariant.** -/
theorem Run.kept {n : Nat} {well : Sys → Obj → Prop} (run : Run L n well σ) (least : 1 ≤ n)
    (safe : ∀ σ o, n ≤ σ.nobjs o.si → well σ o → EmptiesWell σ o) :
    (∃ g, Kept L σ g) ∧ ∀ k ∈ σ.infos, HoldsAtLeast n (σ.objSz k) := by
  induction run with
  | init m pool infos => exact ⟨⟨_, Kept.start L m pool infos⟩, fun _ member => absurd member List.not_mem_nil⟩
  | step before next ih =>
    obtain ⟨⟨g, kept⟩, sizes⟩ := ih
    refine kept.step least sizes (fun o live => safe _ o ?_) next
    exact (sizes o.si ((kept.objects o).mp live).1).many

/-! ## A correct allocator -/

/-- The live objects of an info in a block. -/
def Sys.liveIn (L : Layout) (σ : Sys) (si : Nat) (b : Block) : List Obj :=
  σ.live.filter fun o => o.si = si ∧ L.block b ≤ o.addr ∧ o.addr < L.block b + memMgrObjSz

/-- The header and the bytes of one object end before those of the other begin. -/
def Sys.Before (σ : Sys) (o o' : Obj) : Prop := o.addr + σ.objSz o.si ≤ psMheadGet o'.addr

/-- What the allocator is for, with the blocks that each info holds and those of the pool. -/
structure Correct (L : Layout) (σ : Sys) (held : Nat → List Block) (free : List Block) : Prop where
  apart : σ.live.Pairwise fun o o' => σ.Before o o' ∨ σ.Before o' o
  inside : ∀ o ∈ σ.live, ∃ b ∈ held o.si, L.block b + sizeofPsSlab ≤ psMheadGet o.addr ∧
    o.addr + σ.objSz o.si ≤ L.block b + memMgrObjSz
  lists : ∀ si ∈ σ.infos, ∃ xs ys, SlabList L σ.st.mem (σ.st.infos si).fl xs ∧ SlabList L σ.st.mem (σ.st.infos si).el ys ∧
    held si = xs ++ ys
  nfree : ∀ si ∈ σ.infos, ∀ b ∈ held si, σ.st.mem (L.block b + offNfree) + (σ.liveIn L si b).length = σ.nobjs si
  nslabs : ∀ si ∈ σ.infos, (σ.st.infos si).nslabs = (held si).length
  pool : Pool L σ.st.pool free
  blocks : (free ++ σ.infos.flatMap held).Perm (List.finRange memMgrObjNum)

/-- Live objects are apart. -/
theorem Kept.before (kept : Kept L σ g) {o o' : Obj} (live : o ∈ σ.live) (live' : o' ∈ σ.live) (differ : o ≠ o') :
    σ.Before o o' ∨ σ.Before o' o := by
  obtain ⟨known, a, j, onSlab, bound, used, addr⟩ := (kept.objects o).mp live
  obtain ⟨known', a', j', onSlab', bound', used', addr'⟩ := (kept.objects o').mp live'
  obtain ⟨low, high⟩ := (kept.info _ known).geometry.header_inside L a bound
  obtain ⟨low', high'⟩ := (kept.info _ known').geometry.header_inside L a' bound'
  have object := (kept.info _ known).geometry.object
  have object' := (kept.info _ known').geometry.object
  simp only [Sys.Before, Sys.objSz, addr, addr', psMheadMem, psMheadGet, Nat.add_sub_cancel]
  by_cases same : a = a'
  · subst same
    have owner := kept.owner_unique known known' onSlab onSlab'
    rw [owner] at addr object ⊢
    rcases Nat.lt_trichotomy j j' with less | rfl | greater
    · have far := L.header_lt (σ.st.infos o'.si).objSz a less
      omega
    · refine absurd ?_ differ
      cases o
      cases o'
      simp_all
    · have far := L.header_lt (σ.st.infos o'.si).objSz a greater
      omega
  · have far := L.block_apart same
    omega

/-- Two objects of a block have different headers. -/
theorem Layout.header_inj (L : Layout) {objSz : Nat} (geo : Geometry objSz) (b : Block) {i j : Nat}
    (same : L.header objSz b i = L.header objSz b j) : i = j := by
  have line := geo.line
  rcases Nat.lt_trichotomy i j with less | equal | greater
  · have far := L.header_lt objSz b less
    omega
  · exact equal
  · have far := L.header_lt objSz b greater
    omega

/-- The live objects of a slab are those that are not free. -/
theorem Kept.mem_liveIn (kept : Kept L σ g) (created : si ∈ σ.infos) {b : Block} (slab : b ∈ g.held si) (o : Obj) :
    o ∈ σ.liveIn L si b ↔ ∃ j < σ.nobjs si, j ∉ g.avail b ∧ ⟨psMheadMem (L.header (σ.st.infos si).objSz b j), si⟩ = o := by
  have geo := (kept.info si created).geometry
  have line := geo.line
  simp only [Sys.liveIn, List.mem_filter, decide_eq_true_eq]
  constructor
  · rintro ⟨live, rfl, low, high⟩
    obtain ⟨_, a, j, onSlab, bound, used, addr⟩ := (kept.objects o).mp live
    obtain ⟨lowO, highO⟩ := geo.header_inside L a bound
    have here : a = b := by
      by_contra differ
      have far := L.block_apart differ
      rw [addr, psMheadMem, sizeofPsMheader] at low high
      omega
    exact ⟨j, bound, here ▸ used, by rw [← here, ← addr]⟩
  · rintro ⟨j, bound, used, rfl⟩
    obtain ⟨low, high⟩ := geo.header_inside L b bound
    refine ⟨(kept.objects _).mpr ⟨created, b, j, slab, bound, used, rfl⟩, rfl, ?_, ?_⟩
    · simp only [psMheadMem]
      omega
    · simp only [psMheadMem, sizeofPsMheader]
      omega

/-- Of a slab's objects, those that are not free are live. -/
theorem Kept.liveIn_length (kept : Kept L σ g) (created : si ∈ σ.infos) {b : Block} (slab : b ∈ g.held si) :
    (g.avail b).length + (σ.liveIn L si b).length = σ.nobjs si := by
  have info := kept.info si created
  have here := info.slab b slab
  let object : Nat → Obj := fun j => ⟨psMheadMem (L.header (σ.st.infos si).objSz b j), si⟩
  have used : (σ.liveIn L si b).Perm (((List.range (σ.nobjs si)).filter (· ∉ g.avail b)).map object) := by
    refine (List.perm_ext_iff_of_nodup (kept.live.filter _) ?_).mpr fun o => ?_
    · refine (List.nodup_map_iff_inj_on (List.nodup_range.filter _)).mpr fun i _ j _ same => ?_
      exact L.header_inj info.geometry b (Nat.add_right_cancel (congrArg Obj.addr same))
    · refine (kept.mem_liveIn created slab o).trans ?_
      simp only [List.mem_map, List.mem_filter, List.mem_range, decide_eq_true_eq, and_assoc, object]
  have free : ((List.range (σ.nobjs si)).filter (· ∈ g.avail b)).Perm (g.avail b) := by
    refine (List.perm_ext_iff_of_nodup (List.nodup_range.filter _) here.nodup).mpr fun j => ?_
    simp only [List.mem_filter, List.mem_range, decide_eq_true_eq, and_iff_right_iff_imp]
    exact here.bound j
  have split := List.length_eq_length_filter_add (l := List.range (σ.nobjs si)) (· ∈ g.avail b)
  rw [List.length_range, free.length_eq] at split
  rw [used.length_eq, List.length_map]
  simp only [decide_not]
  exact split.symm

/-- With the invariant the allocator is correct. -/
theorem Kept.correct (kept : Kept L σ g) : Correct L σ g.held g.free := by
  refine ⟨?_, fun o live => ?_, fun k created => ?_, fun k created b slab => ?_, fun k created => ?_, kept.pool, kept.once⟩
  · refine kept.live.imp_of_mem fun live live' differ => kept.before live live' differ
  · obtain ⟨known, b, j, slab, bound, _, addr⟩ := (kept.objects o).mp live
    have geo := (kept.info _ known).geometry
    have object := geo.object
    obtain ⟨low, high⟩ := geo.header_inside L b bound
    refine ⟨b, slab, ?_, ?_⟩
    · rwa [addr, psMheadGet, psMheadMem, Nat.add_sub_cancel]
    · rw [addr, Sys.objSz, psMheadMem]
      omega
  · exact ⟨g.fl k, g.el k, (kept.info k created).fl, (kept.info k created).el, rfl⟩
  · rw [((kept.info k created).slab b slab).nfree]
    exact kept.liveIn_length created slab
  · exact (kept.info k created).nslabs

/-- A head that is not NULL has slabs behind it. -/
theorem Kept.fl_ne_nil (kept : Kept L σ g) (created : si ∈ σ.infos) (slab : (σ.st.infos si).fl ≠ 0) : g.fl si ≠ [] :=
  fun none => slab ((kept.info si created).fl.head_eq_zero.mpr none)

/-- A pool whose list is not empty has a block. -/
theorem Kept.free_ne_nil (kept : Kept L σ g) (filled : ¬ psListLlEmpty σ.st.pool L.head) : g.free ≠ [] :=
  fun none => filled (kept.pool.empty_iff.mpr none)

/-- **The slab allocator is correct.** In every state of a run, with infos whose slabs hold at least two
objects, the objects and the blocks are where they should be. An allocation succeeds while the info has a
slab with free objects or the pool a block, and returns no live object, and every live object can be
freed. -/
theorem slab_allocator_correct (L : Layout) (σ : Sys) (run : Run L 2 (fun _ _ => True) σ) :
    (∃ held free, Correct L σ held free) ∧
      (∀ si ∈ σ.infos, ∀ tsc, (σ.st.infos si).fl ≠ 0 ∨ ¬ psListLlEmpty σ.st.pool L.head →
        ∃ p st', biSlabAlloc L σ.st si tsc = some (p, st') ∧ ∀ o ∈ σ.live, o.addr ≠ p) ∧
      ∀ o ∈ σ.live, ∃ st', biSlabFree L σ.st o.addr = some st' := by
  have several : ∀ σ : Sys, ∀ o : Obj, 2 ≤ σ.nobjs o.si → True → EmptiesWell σ o := by
    intro σ o many _ one
    omega
  obtain ⟨⟨g, kept⟩, sizes⟩ := run.kept (by decide) several
  refine ⟨⟨_, _, kept.correct⟩, fun si created tsc room => ?_, fun o live => ?_⟩
  · obtain ⟨p, st', _, called, new, _⟩ := kept.alloc created (room.imp (kept.fl_ne_nil created) kept.free_ne_nil) tsc
    exact ⟨p, st', called, new⟩
  · have many := (sizes o.si ((kept.objects o).mp live).1).many
    obtain ⟨st', _, called, _⟩ := kept.free live (several σ o many trivial)
    exact ⟨st', called⟩

end

/-! ## First objects -/

/-- The head of the pool's list is apart from its items. -/
theorem head_below_items : 2 ^ 10 + 16 ≤ 2 ^ 20 := by decide

/-- A node with its pool's items and blocks in this order. -/
def smallLayout : Layout where
  nodeId := 0
  start := 2 ^ 40
  items := 2 ^ 20
  head := 2 ^ 10
  start_pos := Nat.two_pow_pos 40
  items_pos := Nat.two_pow_pos 20
  apart := Or.inl head_below_items

/-- An info of any size that fits can be created in the beginning, and has an object to give. -/
theorem exists_first_object {L : Layout} {n objSz : Nat} (holds : HoldsAtLeast n objSz) (least : 1 ≤ n)
    (aligned : psSlabObjmemsz objSz < memMgrObjSz) (well : Sys → Obj → Prop) :
    ∃ st st₁ p st₂ g, biSlabCreate L st 1 objSz = some st₁ ∧ biSlabAlloc L st₁ 1 0 = some (p, st₂) ∧
      Run L n well ⟨st₂, [1], [⟨p, 1⟩]⟩ ∧ (st₂.infos 1).objSz = objSz ∧ Kept L ⟨st₂, [1], [⟨p, 1⟩]⟩ g := by
  have start := Kept.start L (fun _ => 0) (fun _ => 0) fun _ => ⟨0, 0, 0, 0, 0⟩
  have began : Run L n well _ := Run.init (fun _ => 0) (fun _ => 0) fun _ => ⟨0, 0, 0, 0, 0⟩
  have filled : List.finRange memMgrObjNum ≠ [] := by
    intro none
    have length := List.length_finRange (n := memMgrObjNum)
    rw [none] at length
    cases length
  generalize memMgrInit L (fun _ => 0) = words at start began
  generalize List.finRange memMgrObjNum = free at start filled
  obtain ⟨st₁, create⟩ : ∃ st₁, biSlabCreate L ⟨fun _ => 0, words, fun _ => ⟨0, 0, 0, 0, 0⟩⟩ 1 objSz = some st₁ :=
    ⟨_, biSlabCreate_passed _ aligned⟩
  have kept := start.create (by simp) (by decide) ⟨holds.fits, Nat.le_trans least holds.many⟩ create
  have ran := began.step (.create (by simp) (by decide) holds create)
  have size : (st₁.infos 1).objSz = objSz := by
    rw [biSlabCreate_eq create]
    rfl
  obtain ⟨p, st₂, g, alloc, _, sizes, kept'⟩ := kept.alloc (List.mem_cons_self) (Or.inr filled) 0
  exact ⟨_, st₁, p, st₂, g, create, alloc, ran.step (.alloc List.mem_cons_self alloc), (sizes 1).trans size, kept'⟩

/-- Two infos and the whole pool. -/
theorem exists_two_infos {n a c : Nat} (L : Layout) (holds₁ : HoldsAtLeast n a) (holds₂ : HoldsAtLeast n c) (least : 1 ≤ n)
    (fits₁ : psSlabObjmemsz a < memMgrObjSz) (fits₂ : psSlabObjmemsz c < memMgrObjSz) (well : Sys → Obj → Prop) :
    ∃ st g b b' rest, Run L n well ⟨st, [2, 1], []⟩ ∧ Kept L ⟨st, [2, 1], []⟩ g ∧ g.held 1 = [] ∧ g.held 2 = [] ∧
      g.free = b :: b' :: rest ∧ st.infos 1 = ⟨0, 0, L.nodeId, a, 0⟩ ∧ st.infos 2 = ⟨0, 0, L.nodeId, c, 0⟩ := by
  have start := Kept.start L (fun _ => 0) (fun _ => 0) fun _ => ⟨0, 0, 0, 0, 0⟩
  have began : Run L n well _ := Run.init (fun _ => 0) (fun _ => 0) fun _ => ⟨0, 0, 0, 0, 0⟩
  obtain ⟨b, b', rest, several⟩ : ∃ b b' rest, List.finRange memMgrObjNum = b :: b' :: rest := by
    have length := List.length_finRange (n := memMgrObjNum)
    generalize List.finRange memMgrObjNum = all at length
    match all with
    | [] => cases length
    | [_] => cases length
    | b :: b' :: rest => exact ⟨b, b', rest, rfl⟩
  generalize memMgrInit L (fun _ => 0) = words at start began
  rw [several] at start
  obtain ⟨st₁, create₁⟩ : ∃ st₁, biSlabCreate L ⟨fun _ => 0, words, fun _ => ⟨0, 0, 0, 0, 0⟩⟩ 1 a = some st₁ :=
    ⟨_, biSlabCreate_passed _ fits₁⟩
  have kept₁ := start.create (by simp) (by decide) ⟨holds₁.fits, Nat.le_trans least holds₁.many⟩ create₁
  have run₁ : Run L n well ⟨st₁, [1], []⟩ := began.step (.create (by simp) (by decide) holds₁ create₁)
  obtain ⟨st₂, create₂⟩ : ∃ st₂, biSlabCreate L st₁ 2 c = some st₂ := ⟨_, biSlabCreate_passed _ fits₂⟩
  have kept₂ := kept₁.create (by simp) (by decide) ⟨holds₂.fits, Nat.le_trans least holds₂.many⟩ create₂
  have run₂ : Run L n well ⟨st₂, [2, 1], []⟩ := run₁.step (.create (by simp) (by decide) holds₂ create₂)
  refine ⟨st₂, _, b, b', rest, run₂, kept₂, ?_, ?_, rfl, ?_, ?_⟩
  · simp [Books.held, Books.begin]
  · simp [Books.held, Books.begin]
  · rw [biSlabCreate_eq create₂, biSlabCreate_eq create₁]
    rfl
  · rw [biSlabCreate_eq create₂]
    rfl

/-- Objects of 64 bytes take two lines each, -/
theorem psSlabObjmemsz_small : psSlabObjmemsz 64 = 128 := by decide

/-- and so many go into a slab. -/
theorem biSlabNobjs_small : biSlabNobjs 64 = 8191 := by
  rw [biSlabNobjs, psSlabMaxNobjs, psSlabObjmemsz_small]
  decide

/-- Objects of half a block, -/
theorem psSlabObjmemsz_two : psSlabObjmemsz 500000 = 500032 := by decide

/-- of which two go into a slab. -/
theorem biSlabNobjs_two : biSlabNobjs 500000 = 2 := by
  rw [biSlabNobjs, psSlabMaxNobjs, psSlabObjmemsz_two]
  decide

/-- Two objects to a slab: two allocations fill the first block of the pool. -/
theorem Kept.fill {L : Layout} {σ : Sys} {g : Books} {k : Nat} (kept : Kept L σ g) (created : k ∈ σ.infos) (noFl : g.fl k = [])
    {b : Block} {rest : List Block} (first : g.free = b :: rest) (two : σ.nobjs k = 2) :
    ∃ p q st₁ st₂ ys g₂, biSlabAlloc L σ.st k 0 = some (p, st₁) ∧ biSlabAlloc L st₁ k 0 = some (q, st₂) ∧
      (st₂.infos k).objSz = σ.objSz k ∧ Kept L ⟨st₂, σ.infos, ⟨q, k⟩ :: ⟨p, k⟩ :: σ.live⟩ g₂ ∧ g₂.fl k = [] ∧
      g₂.el k = b :: ys ∧ ys.Perm (g.el k) ∧ g₂.free = rest ∧ g₂.Uses L st₂ ⟨p, k⟩ b 0 := by
  have source : g.Source (σ.objSz k) k b [0, 1] [] rest := by
    have new : g.Source (σ.objSz k) k b (List.range (σ.nobjs k)) [] rest := .new noFl first
    rwa [two] at new
  obtain ⟨st₁, xs, ys, alloc, taken, _, sizes, _, place, kept₁⟩ := kept.alloc_spec created source 0
  obtain ⟨rfl, rfl⟩ : xs = [b] ∧ ys = g.el k := by simpa [Taken] using taken
  generalize psMheadMem (L.header (σ.objSz k) b 0) = p at alloc place kept₁
  generalize filled : g.update k b [b] (g.el k) [1] rest = g₁ at place kept₁
  obtain ⟨fl₁, el₁, avail₁, free₁⟩ : g₁.fl k = [b] ∧ g₁.el k = g.el k ∧ g₁.avail b = [1] ∧ g₁.free = rest := by
    simp [← filled]
  have source₁ : g₁.Source (st₁.infos k).objSz k b [1] [] rest := by
    rw [← avail₁, ← free₁]
    exact .first fl₁
  obtain ⟨st₂, xs₂, ys₂, alloc₂, taken₂, _, sizes₂, _, _, kept₂⟩ := kept₁.alloc_spec created source₁ 0
  obtain ⟨rfl, ys, rfl, perm⟩ : xs₂ = [] ∧ ∃ rest, ys₂ = b :: rest ∧ rest.Perm (g.el k) := by simpa [Taken, el₁] using taken₂
  have place₂ : (g₁.update k b [] (b :: ys) [] rest).Uses L st₂ ⟨p, k⟩ b 0 := by
    obtain ⟨_, bound, _, addr⟩ := place
    have same : (st₂.infos k).objSz = (st₁.infos k).objSz := sizes₂ k
    refine ⟨by simp, ?_, by simp, ?_⟩
    · simpa only [same] using bound
    · simpa only [same] using addr
  exact ⟨p, _, st₁, st₂, ys, _, alloc, alloc₂, (sizes₂ k).trans (sizes k), kept₂, by simp, by simp, perm, by simp, place₂⟩

/-- Both objects of a slab are allocated, beside an info that has none yet. -/
theorem exists_full_slab {n a : Nat} (L : Layout) (holds₁ : HoldsAtLeast n a) (holds₂ : HoldsAtLeast n 500000) (least : 1 ≤ n)
    (fits : psSlabObjmemsz a < memMgrObjSz) (well : Sys → Obj → Prop) :
    ∃ st g b o o', Run L n well ⟨st, [2, 1], [o', o]⟩ ∧ Kept L ⟨st, [2, 1], [o', o]⟩ g ∧ g.fl 2 = [] ∧ g.el 2 = [b] ∧
      g.free ≠ [] ∧ g.Uses L st o b 0 ∧ o.si = 2 ∧ o'.si = 2 ∧ (st.infos 2).objSz = 500000 := by
  obtain ⟨st, g, b, b', rest, run, kept, noneA, noneC, free, infoA, infoC⟩ :=
    exists_two_infos L holds₁ holds₂ least fits (by rw [psSlabObjmemsz_two]; decide) well
  obtain ⟨noFl, noEl⟩ : g.fl 2 = [] ∧ g.el 2 = [] := List.append_eq_nil_iff.mp noneC
  have size : (st.infos 2).objSz = 500000 := by rw [infoC]
  have two : Sys.nobjs ⟨st, [2, 1], []⟩ 2 = 2 := by rw [Sys.nobjs, Sys.objSz, size, biSlabNobjs_two]
  obtain ⟨p, q, st₁, st₂, ys, g₂, alloc, alloc₂, same, kept₂, fl₂, el₂, perm, free₂, place⟩ := kept.fill (by simp) noFl free two
  rw [noEl, List.perm_nil] at perm
  have run₁ : Run L n well ⟨st₁, [2, 1], [⟨p, 2⟩]⟩ := run.step (.alloc (by simp) alloc)
  have run₂ : Run L n well ⟨st₂, [2, 1], [⟨q, 2⟩, ⟨p, 2⟩]⟩ := run₁.step (.alloc (by simp) alloc₂)
  exact ⟨st₂, g₂, b, ⟨p, 2⟩, ⟨q, 2⟩, run₂, kept₂, fl₂, perm ▸ el₂, by simp [free₂], place, rfl, rfl, same.trans size⟩

/-- Two infos with objects: a slab is filled, refilled by a free, and the object is allocated again. -/
theorem slab_allocator_correct_refill :
    ∃ full σ : Sys, ∃ o ∈ full.live, ∃ st₁ p st₂ q st₃, Run smallLayout 2 (fun _ _ => True) full ∧ (full.st.infos 2).fl = 0 ∧
      biSlabFree smallLayout full.st o.addr = some st₁ ∧ (st₁.infos 2).fl ≠ 0 ∧ biSlabAlloc smallLayout st₁ 2 0 = some (p, st₂) ∧
      biSlabAlloc smallLayout st₂ 1 0 = some (q, st₃) ∧ σ = ⟨st₃, [2, 1], ⟨q, 1⟩ :: ⟨p, 2⟩ :: full.live.erase o⟩ ∧
      Run smallLayout 2 (fun _ _ => True) σ ∧ (∃ held free, Correct smallLayout σ held free) ∧
      (∀ si ∈ σ.infos, ∀ tsc, (σ.st.infos si).fl ≠ 0 ∨ ¬ psListLlEmpty σ.st.pool smallLayout.head →
        ∃ p st', biSlabAlloc smallLayout σ.st si tsc = some (p, st') ∧ ∀ o ∈ σ.live, o.addr ≠ p) ∧
      ∀ o ∈ σ.live, ∃ st', biSlabFree smallLayout σ.st o.addr = some st' := by
  have small : HoldsAtLeast 2 64 := ⟨by decide, by rw [biSlabNobjs_small]; decide⟩
  have two : HoldsAtLeast 2 500000 := ⟨by decide, by rw [biSlabNobjs_two]⟩
  obtain ⟨st, g, b, o, o', run, kept, noFl, el, pooled, place, info, info', size⟩ :=
    exists_full_slab smallLayout small two (by decide) (by rw [psSlabObjmemsz_small]; decide) fun _ _ => True
  have several : Sys.nobjs ⟨st, [2, 1], [o', o]⟩ o.si ≠ 1 := by
    rw [info, Sys.nobjs, Sys.objSz, size, biSlabNobjs_two]
    decide
  have head := (kept.info 2 (by simp)).fl.head
  rw [noFl, Layout.first_nil] at head
  obtain ⟨st₁, xs, ys, ys', free, sizes, perm, split, kept₁⟩ := kept.free_refill (by simp) place (by simp [info, el]) several
  have run₁ := run.step (.free (by simp) trivial free)
  rw [info] at kept₁
  have head₁ := (kept₁.info 2 (by simp)).fl.head
  simp only [Books.update_fl, Layout.first_cons] at head₁
  generalize refilled : g.update 2 b (b :: xs) (ys ++ ys') [0] g.free = g₁ at kept₁
  obtain ⟨fl₁, avail₁, free₁⟩ : g₁.fl 2 = b :: xs ∧ g₁.avail b = [0] ∧ g₁.free = g.free := by simp [← refilled]
  have source : g₁.Source (st₁.infos 2).objSz 2 b [0] xs g.free := by
    rw [← avail₁, ← free₁]
    exact .first fl₁
  obtain ⟨st₂, _, _, alloc₂, _, _, _, _, _, kept₂⟩ := kept₁.alloc_spec (by simp) source 0
  have run₂ := run₁.step (.alloc (by simp) alloc₂)
  obtain ⟨q, st₃, _, alloc₃, _, _, kept₃⟩ := kept₂.alloc (by simp : 1 ∈ [2, 1]) (Or.inr pooled) 0
  have run₃ := run₂.step (.alloc (by simp) alloc₃)
  obtain ⟨correct, allocs, frees⟩ := slab_allocator_correct smallLayout _ run₃
  exact ⟨⟨st, [2, 1], [o', o]⟩, _, o, by simp, st₁, _, st₂, q, st₃, run, head, free, by rw [head₁]; exact smallLayout.block_pos b,
    alloc₂, alloc₃, rfl, run₃, correct, allocs, frees⟩

end BiProject.Slab
