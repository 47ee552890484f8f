import BiProject.Slab.Books

/-!
# The allocator keeps its books

Every call and every write of the users keeps the invariant of the system, an allocation succeeds as long
as there is a free object or a block in the pool, and a free of a live object succeeds.
-/

namespace BiProject.Slab
set_option autoImplicit false
open BiProject.Lib.ListMem

section
variable {L : Layout} {st st' : State} {infos : List Nat} {g : Books} {si : Nat} {b : Block} {F : List Nat}
  {xs ys free : List Block}

/-- **One info after a call on its slab `b`**: its other slabs are as they were. -/
theorem InfoKept.call (kept : InfoKept L st g si) (home : (st'.infos si).nodeid = (st.infos si).nodeid)
    (size : (st'.infos si).objSz = (st.infos si).objSz) (fl : SlabList L st'.mem (st'.infos si).fl xs)
    (el : SlabList L st'.mem (st'.infos si).el ys) (same : Untouched L b (g.held si) st.mem st'.mem)
    (slab : b ∈ xs ++ ys → SlabAt L st'.mem si (st.infos si).objSz b F) (oldFl : ∀ a ∈ xs, a ≠ b → a ∈ g.fl si)
    (oldEl : ∀ a ∈ ys, a ≠ b → a ∈ g.el si) (partly : b ∈ xs → F ≠ [] ∧ F.length < biSlabNobjs (st.infos si).objSz)
    (full : b ∈ ys → F = []) (nslabs : (st'.infos si).nslabs = (xs ++ ys).length) :
    InfoKept L st' (g.update si b xs ys F free) si := by
  constructor
  · exact kept.notNull
  · rw [home]
    exact kept.home
  · rw [size]
    exact kept.holds
  · rw [g.update_fl]
    exact fl
  · rw [g.update_el]
    exact el
  · rw [g.update_held, size]
    intro a member
    by_cases here : a = b
    · subst here
      rw [g.update_avail]
      exact slab member
    · have old : a ∈ g.held si := by
        rcases List.mem_append.mp member with inFl | inEl
        · exact List.mem_append.mpr (Or.inl (oldFl a inFl here))
        · exact List.mem_append.mpr (Or.inr (oldEl a inEl here))
      rw [g.update_avail_of_ne _ _ _ _ _ _ here]
      refine (kept.slab a old).frame fun x word => same x ?_ (word.noLink kept.geometry)
      obtain ⟨low, high, _⟩ := word.inside kept.geometry
      have far := L.block_apart here
      omega
  · rw [g.update_fl, size]
    intro a member
    by_cases here : a = b
    · subst here
      rw [g.update_avail]
      exact partly member
    · rw [g.update_avail_of_ne _ _ _ _ _ _ here]
      exact kept.partly a (oldFl a member here)
  · rw [g.update_el]
    intro a member
    by_cases here : a = b
    · subst here
      rw [g.update_avail]
      exact full member
    · rw [g.update_avail_of_ne _ _ _ _ _ _ here]
      exact kept.full a (oldEl a member here)
  · rw [nslabs, g.update_held]

/-- No info has more slabs than there are blocks. -/
theorem Held.held_length (held : Held L st infos g) (created : si ∈ infos) : (g.held si).length ≤ memMgrObjNum := by
  have fewer := ((held.held_nodup created).subperm fun a _ => List.mem_finRange a).length_le
  rwa [List.length_finRange] at fewer

/-! ## Allocation -/

/-- The slab that an allocation takes from, with its free objects, and what is left of the freelist and of the pool. -/
inductive Books.Source (g : Books) (objSz si : Nat) : Block → List Nat → List Block → List Block → Prop where
  | first {b : Block} {xs : List Block} (list : g.fl si = b :: xs) : g.Source objSz si b (g.avail b) xs g.free
  | new {b : Block} {free : List Block} (none : g.fl si = []) (pool : g.free = b :: free) :
      g.Source objSz si b (List.range (biSlabNobjs objSz)) [] free

/-- There is one while the info has a slab with free objects or the pool a block. -/
theorem Held.source (held : Held L st infos g) (created : si ∈ infos) (room : g.fl si ≠ [] ∨ g.free ≠ []) :
    ∃ (b : Block) (j : Nat) (F : List Nat) (xs free : List Block), g.Source (st.infos si).objSz si b (j :: F) xs free := by
  have kept := held.info si created
  cases list : g.fl si with
  | cons b xs =>
    obtain ⟨j, F, avail⟩ := List.exists_cons_of_ne_nil (kept.partly b (by simp [list])).1
    exact ⟨b, j, F, xs, g.free, avail ▸ .first list⟩
  | nil =>
    obtain ⟨b, free, pooled⟩ := List.exists_cons_of_ne_nil (room.resolve_left (by simp [list]))
    obtain ⟨n, cap⟩ : ∃ n, biSlabNobjs (st.infos si).objSz = n + 1 := ⟨_, (Nat.sub_add_cancel kept.holds.many).symm⟩
    have source : g.Source (st.infos si).objSz si b (List.range (biSlabNobjs (st.infos si).objSz)) [] free := .new list pooled
    rw [cap, List.range_succ_eq_map] at source
    exact ⟨b, 0, _, [], free, source⟩

/-- What `__ps_slab_mem_alloc` has when it knows the slab to take an object from. -/
structure Picked (L : Layout) (st : State) (g : Books) (si : Nat) (b : Block) (j : Nat) (F : List Nat) (xs free : List Block)
    (st₁ : State) : Prop where
  slab : SlabAt L st₁.mem si (st.infos si).objSz b (j :: F)
  fl : SlabList L st₁.mem (st₁.infos si).fl (b :: xs)
  el : SlabList L st₁.mem (st₁.infos si).el (g.el si)
  pool : Pool L st₁.pool free
  moved : (free ++ b :: xs).Perm (g.free ++ g.fl si)
  same : ∀ x, x < L.block b ∨ L.block b + memMgrObjSz ≤ x → st₁.mem x = st.mem x
  others : ∀ si', si' ≠ si → st₁.infos si' = st.infos si'
  home : (st₁.infos si).nodeid = (st.infos si).nodeid
  size : (st₁.infos si).objSz = (st.infos si).objSz
  nslabs : (st₁.infos si).nslabs = (b :: xs ++ g.el si).length
  lists : ∀ a, a ≠ b → (a ∈ xs ↔ a ∈ g.fl si)
  used : ∀ k < biSlabNobjs (st.infos si).objSz, k ∉ j :: F ↔ b ∈ g.held si ∧ k ∉ g.avail b

/-- **The slab to take from**: the first one of the freelist, or a new one. -/
theorem Held.pick (held : Held L st infos g) (created : si ∈ infos) {j : Nat}
    (source : g.Source (st.infos si).objSz si b (j :: F) xs free) :
    ∃ st₁ : State, psSlabPick L st si memMgrObjSz sizeofPsSlab = some (L.block b, st₁) ∧ Picked L st g si b j F xs free st₁ := by
  have kept := held.info si created
  generalize objects : j :: F = all at source
  cases source with
  | first list =>
    have head := kept.fl.head
    rw [list, L.first_cons] at head
    have inHeld : b ∈ g.held si := List.mem_append.mpr (Or.inl (by simp [list]))
    refine ⟨st, ?_, ?_, ?_, kept.el, held.pool, ?_, fun x _ => rfl, fun _ _ => rfl, rfl, rfl, ?_, ?_, ?_⟩
    · rw [psSlabPick, if_neg (by rw [head]; exact L.block_pos b), head]
      rfl
    · rw [objects]
      exact kept.slab b inHeld
    · rw [← list]
      exact kept.fl
    · rw [list]
    · rw [kept.nslabs, Books.held, list]
    · intro a differ
      simp [list, differ]
    · intro k _
      simp [inHeld, objects]
  | new none pooled =>
    have empty : (st.infos si).fl = 0 := kept.fl.head_eq_zero.mpr none
    have pool := held.pool
    rw [pooled] at pool
    obtain ⟨m', pool', run, poolAfter, slab, fl, _, out⟩ := psSlabPick_new kept.geometry rfl empty pool
    have notHeld : b ∉ g.held si := fun slab => held.not_free created slab (pooled ▸ List.mem_cons_self)
    rw [← objects] at slab
    refine ⟨_, run, slab, ?_, ?_, poolAfter, ?_, out, ?_, ?_, ?_, ?_, ?_, ?_⟩
    · simpa [State.setInfo] using fl
    · have el : SlabList L m' (st.infos si).el (g.el si) := by
        refine kept.el.frame fun a member => ?_
        have differ : a ≠ b := by
          rintro rfl
          exact notHeld (List.mem_append.mpr (Or.inr member))
        have far := L.block_apart differ
        simp only [memMgrObjSz, Layout.slabNodes, offList] at far out ⊢
        exact ⟨out _ (by omega), out _ (by omega)⟩
      simpa [State.setInfo] using el
    · rw [pooled, none, List.append_nil]
      exact List.perm_append_singleton b free
    · intro si' differ
      simp [State.setInfo, Function.update_of_ne differ]
    · simp [State.setInfo]
    · simp [State.setInfo]
    · have few := held.held_length created
      have count := kept.nslabs
      simp only [Books.held, none, List.nil_append] at few count
      have small : (g.el si).length + 1 < u64 := by
        simp only [memMgrObjNum] at few
        simp only [u64]
        omega
      simp only [State.setInfo, Function.update_self]
      rw [count, incr_eq small]
      rfl
    · simp [none]
    · intro k bound
      simp [objects, bound, notHeld]

/-! ### The books after an allocation -/

section
variable {j : Nat} {st₁ : State}

/-- The slab was one of the info's, or a block of the pool. -/
theorem Picked.mine (picked : Picked L st g si b j F xs free st₁) : b ∈ g.held si ∨ b ∈ g.free := by
  have member : b ∈ g.free ++ g.fl si := picked.moved.subset (by simp)
  rcases List.mem_append.mp member with free | slab
  · exact Or.inr free
  · exact Or.inl (List.mem_append.mpr (Or.inl slab))

theorem Picked.moved_held (picked : Picked L st g si b j F xs free st₁) :
    (free ++ (b :: xs ++ g.el si)).Perm (g.free ++ g.held si) := by
  simpa only [Books.held, List.append_assoc] using picked.moved.append_right (g.el si)

theorem Picked.nodup (picked : Picked L st g si b j F xs free st₁) (held : Held L st infos g) (created : si ∈ infos) :
    (b :: xs ++ g.el si).Nodup := by
  have once := (flatMap_held created g).append_left g.free
  have front := once.nodup_iff.mp held.distinct
  rw [← List.append_assoc] at front
  exact (List.nodup_append'.mp (picked.moved_held.nodup_iff.mpr (List.nodup_append'.mp front).1)).2.1

/-- **The object is taken**, and everything but the live objects is in order again. -/
theorem Held.take (held : Held L st infos g) (created : si ∈ infos) (picked : Picked L st g si b j F xs free st₁) (tsc : Nat) :
    ∃ st' xs' ys', psSlabTake st₁ si (L.block b) tsc = some (psMheadMem (L.header (st.infos si).objSz b j), st') ∧
      Taken F b xs (g.el si) xs' ys' ∧ (∀ k, k ≠ si → st'.infos k = st.infos k) ∧
      (∀ k, (st'.infos k).objSz = (st.infos k).objSz) ∧ Held L st' infos (g.update si b xs' ys' F free) := by
  have info := held.info si created
  have distinct := picked.nodup held created
  have notFl : b ∉ xs := (List.nodup_cons.mp (List.nodup_append'.mp distinct).1).1
  have apart : ∀ a ∈ g.el si, a ∉ b :: xs := fun a member inside => (List.nodup_append'.mp distinct).2.2 inside member
  obtain ⟨m', f, e, xs', ys', run, taken, fl, el, slab, _, same⟩ :=
    psSlabTake_spec info.geometry picked.slab picked.fl picked.el apart tsc
  obtain ⟨oldFl, oldEl, partly, full⟩ := taken.mem notFl fun member => apart b member (by simp)
  have perm := taken.perm
  have inFl : ∀ a ∈ xs, a ∈ g.fl si := fun a member => (picked.lists a (by rintro rfl; exact notFl member)).mp member
  -- the state after the call
  generalize after : ({ st₁ with mem := m' }.setInfo si { st₁.infos si with fl := f, el := e } : State) = st' at run
  have mem : st'.mem = m' := by rw [← after]; rfl
  have pool : st'.pool = st₁.pool := by rw [← after]; rfl
  have infoAfter : st'.infos si = { st₁.infos si with fl := f, el := e } := by
    rw [← after]
    exact Function.update_self _ _ _
  have others : ∀ k, k ≠ si → st'.infos k = st.infos k := by
    intro k differ
    rw [← after]
    exact (Function.update_of_ne differ _ _).trans (picked.others k differ)
  have sizes : ∀ k, (st'.infos k).objSz = (st.infos k).objSz := by
    intro k
    by_cases same : k = si
    · rw [same, infoAfter]
      exact picked.size
    · rw [others k same]
  have touched : Untouched L b (g.held si) st.mem st'.mem := by
    rw [mem]
    refine (Untouched.trans picked.same (Untouched.uncons (by simpa using same))).mono fun a member => ?_
    rcases List.mem_append.mp member with later | onEl
    · exact List.mem_append.mpr (Or.inl (inFl a later))
    · exact List.mem_append.mpr (Or.inr onEl)
  refine ⟨st', xs', ys', run, taken, others, sizes, ?_⟩
  refine held.change created (fun k _ differ => others k differ) touched picked.mine ?_ ?_ ?_
  · rw [pool]
    exact picked.pool
  · exact (perm.append_left free).trans picked.moved_held
  · refine info.call ?_ (sizes si) ?_ ?_ touched (fun _ => by rw [mem]; exact slab)
      (fun a member differ => inFl a (oldFl a member differ)) oldEl (fun member => ⟨partly member, picked.slab.length_le⟩) full ?_
    · rw [infoAfter]
      exact picked.home
    · rw [mem, infoAfter]
      exact fl
    · rw [mem, infoAfter]
      exact el
    · rw [infoAfter, perm.length_eq]
      exact picked.nslabs

end

/-- The objects in use after a call on the slab `b` of `si`. -/
theorem Held.uses_update (held : Held L st infos g) (created : si ∈ infos) (sizes : ∀ k, (st'.infos k).objSz = (st.infos k).objSz)
    (lists : ∀ a, a ≠ b → (a ∈ xs ++ ys ↔ a ∈ g.held si)) (mine : b ∈ g.held si ∨ b ∈ g.free) {o : Obj}
    (known : o.si ∈ infos) {a : Block} {j : Nat} :
    (g.update si b xs ys F free).Uses L st' o a j ↔
      (a ≠ b ∧ g.Uses L st o a j) ∨ (a = b ∧ o.si = si ∧ b ∈ xs ++ ys ∧ j < biSlabNobjs (st.infos si).objSz ∧ j ∉ F ∧
        o.addr = psMheadMem (L.header (st.infos si).objSz b j)) := by
  have elsewhere : o.si ≠ si → a ∈ g.held o.si → a ≠ b := by
    rintro differ slab rfl
    rcases mine with here | free
    · exact differ (held.owner_unique known created slab here)
    · exact held.not_free known slab free
  by_cases info : o.si = si
  · by_cases here : a = b
    · subst here
      simp [Books.Uses, sizes, info]
    · simp [Books.Uses, sizes, info, here, g.update_avail_of_ne _ _ _ _ _ _ here, ← lists a here]
  · rw [Books.Uses, g.update_held_of_ne _ _ _ _ _ _ info]
    by_cases slab : a ∈ g.held o.si
    · have differ := elsewhere info slab
      simp [Books.Uses, sizes, info, differ, g.update_avail_of_ne _ _ _ _ _ _ differ]
    · simp [Books.Uses, info, slab]

/-- Objects of different slabs or with different numbers are different ones. -/
theorem Held.uses_inj (held : Held L st infos g) {o o' : Obj} {a a' : Block} {j j' : Nat} (known : o.si ∈ infos)
    (known' : o'.si ∈ infos) (uses : g.Uses L st o a j) (uses' : g.Uses L st o' a' j') (same : o.addr = o'.addr) :
    a = a' ∧ j = j' ∧ o.si = o'.si := by
  obtain ⟨slab, bound, _, addr⟩ := uses
  obtain ⟨slab', bound', _, addr'⟩ := uses'
  obtain ⟨low, high⟩ := (held.info _ known).geometry.header_inside L a bound
  obtain ⟨low', high'⟩ := (held.info _ known').geometry.header_inside L a' bound'
  have line := (held.info _ known).geometry.line
  have line' := (held.info _ known').geometry.line
  rw [addr, addr'] at same
  simp only [psMheadMem, Nat.add_right_cancel_iff] at same
  have block : a = a' := by
    by_contra differ
    have far := L.block_apart differ
    simp only [sizeofPsSlab] at *
    omega
  subst block
  have info := held.owner_unique known known' slab slab'
  refine ⟨rfl, ?_, info⟩
  rw [info] at same
  rw [info] at line
  rcases Nat.lt_trichotomy j j' with less | here | greater
  · have apart := L.header_lt (st.infos o'.si).objSz a less
    omega
  · exact here
  · have apart := L.header_lt (st.infos o'.si).objSz a greater
    omega

end

/-! ## The calls -/

section
variable {L : Layout} {σ : Sys} {g : Books} {si : Nat}

/-- The books with the object `j` of the slab `b` taken: the objects live before keep their places, none of which is the
new one. -/
theorem Kept.taken (kept : Kept L σ g) (created : si ∈ σ.infos) {b : Block} {j : Nat} {F : List Nat} {xs free xs' ys' : List Block}
    {st₁ st' : State} (picked : Picked L σ.st g si b j F xs free st₁) (taken : Taken F b xs (g.el si) xs' ys')
    (sizes : ∀ k, (st'.infos k).objSz = (σ.st.infos k).objSz) (held : Held L st' σ.infos (g.update si b xs' ys' F free)) :
    (∀ o ∈ σ.live, o.addr ≠ psMheadMem (L.header (σ.objSz si) b j)) ∧
      (g.update si b xs' ys' F free).Uses L st' ⟨psMheadMem (L.header (σ.objSz si) b j), si⟩ b j ∧
      Kept L ⟨st', σ.infos, ⟨psMheadMem (L.header (σ.objSz si) b j), si⟩ :: σ.live⟩ (g.update si b xs' ys' F free) := by
  have perm := taken.perm
  have here : b ∈ xs' ++ ys' := perm.symm.subset (by simp)
  have bound : j < biSlabNobjs (σ.st.infos si).objSz := picked.slab.bound j (by simp)
  have fresh : j ∉ F := (List.nodup_cons.mp picked.slab.nodup).1
  have lists : ∀ a, a ≠ b → (a ∈ xs' ++ ys' ↔ a ∈ g.held si) := by
    intro a differ
    rw [perm.mem_iff, Books.held]
    simp [differ, picked.lists a differ]
  have uses : ∀ {o : Obj}, o.si ∈ σ.infos → ∀ {a k}, (g.update si b xs' ys' F free).Uses L st' o a k ↔ _ :=
    fun known => kept.uses_update created sizes lists picked.mine known
  have old : ∀ o ∈ σ.live, ∃ a k, (g.update si b xs' ys' F free).Uses L st' o a k ∧ ¬ (a = b ∧ k = j) := by
    intro o live
    obtain ⟨known, a, k, place⟩ := (kept.objects o).mp live
    by_cases same : a = b
    · subst same
      have owner : o.si = si := by
        rcases picked.mine with slab | free
        · exact kept.owner_unique known created place.1 slab
        · exact absurd free (kept.not_free known place.1)
      obtain ⟨slab, small, used, addr⟩ := place
      rw [owner] at slab small addr
      have notFree := (picked.used k small).mpr ⟨slab, used⟩
      refine ⟨a, k, (uses known).mpr (Or.inr ⟨rfl, owner, here, small, fun member => notFree (by simp [member]), addr⟩), ?_⟩
      rintro ⟨-, rfl⟩
      exact notFree (by simp)
    · exact ⟨a, k, (uses known).mpr (Or.inl ⟨same, place⟩), fun both => same both.1⟩
  have new : (g.update si b xs' ys' F free).Uses L st' ⟨psMheadMem (L.header (σ.st.infos si).objSz b j), si⟩ b j :=
    (uses created).mpr (Or.inr ⟨rfl, rfl, here, bound, fresh, rfl⟩)
  have notLive : ∀ o ∈ σ.live, o.addr ≠ psMheadMem (L.header (σ.st.infos si).objSz b j) := by
    intro o live same
    obtain ⟨a, k, place, differ⟩ := old o live
    obtain ⟨block, number, -⟩ := held.uses_inj ((kept.objects o).mp live).1 created place new same
    exact differ ⟨block, number⟩
  refine ⟨notLive, new, held, ?_, fun o => ⟨fun member => ?_, ?_⟩⟩
  · exact List.nodup_cons.mpr ⟨fun member => notLive _ member rfl, kept.live⟩
  · rcases List.mem_cons.mp member with rfl | live
    · exact ⟨created, b, j, new⟩
    · obtain ⟨a, k, place, _⟩ := old o live
      exact ⟨((kept.objects o).mp live).1, a, k, place⟩
  · rintro ⟨known, a, k, place⟩
    rcases (uses known).mp place with ⟨_, before⟩ | ⟨rfl, owner, _, small, notIn, addr⟩
    · exact List.mem_cons_of_mem _ ((kept.objects o).mpr ⟨known, a, k, before⟩)
    · by_cases number : k = j
      · subst number
        have whole : o = ⟨psMheadMem (L.header (σ.st.infos si).objSz a k), si⟩ := by
          rw [← addr, ← owner]
        rw [whole]
        exact List.mem_cons_self
      · obtain ⟨slab, used⟩ := (picked.used k small).mp (by simp [number, notIn])
        refine List.mem_cons_of_mem _ ((kept.objects o).mpr ⟨known, a, k, ?_⟩)
        rw [← owner] at slab small addr
        exact ⟨slab, small, used, addr⟩

/-- The assertions before the slab is picked hold. -/
theorem biSlabAlloc_passed {st st₁ : State} (home : (st.infos si).nodeid = L.nodeId) (holds : HoldsAtLeast 1 (st.infos si).objSz)
    {s : Nat} (pick : psSlabPick L st si memMgrObjSz sizeofPsSlab = some (s, st₁)) (tsc : Nat) :
    biSlabAlloc L st si tsc = psSlabTake st₁ si s tsc := by
  have geo := holds.geometry
  have passed : (guard ((st.infos si).nodeid = L.nodeId) : Option Unit) = some () := if_pos home
  have fits : ((st.infos si).objSz + sizeofPsSlab) % u64 ≤ memMgrObjSz := by
    have many := holds.many
    have inside := geo.inside
    have object := geo.object
    have one : psSlabObjmemsz (st.infos si).objSz ≤ biSlabNobjs (st.infos si).objSz * psSlabObjmemsz (st.infos si).objSz :=
      Nat.le_mul_of_pos_left _ (by omega)
    exact Nat.le_trans (Nat.mod_le _ _) (by omega)
  rw [biSlabAlloc, passed, Option.bind_eq_bind, Option.bind_some, psSlabMemAlloc_passed fits pick]

/-- **What an allocation does**: it takes the next free object of the slab it has to take from. -/
theorem Kept.alloc_spec (kept : Kept L σ g) (created : si ∈ σ.infos) {b : Block} {j : Nat} {F : List Nat} {xs free : List Block}
    (source : g.Source (σ.objSz si) si b (j :: F) xs free) (tsc : Nat) :
    ∃ st' xs' ys', biSlabAlloc L σ.st si tsc = some (psMheadMem (L.header (σ.objSz si) b j), st') ∧
      Taken F b xs (g.el si) xs' ys' ∧ (∀ k, k ≠ si → st'.infos k = σ.st.infos k) ∧
      (∀ k, (st'.infos k).objSz = (σ.st.infos k).objSz) ∧ (∀ o ∈ σ.live, o.addr ≠ psMheadMem (L.header (σ.objSz si) b j)) ∧
      (g.update si b xs' ys' F free).Uses L st' ⟨psMheadMem (L.header (σ.objSz si) b j), si⟩ b j ∧
      Kept L ⟨st', σ.infos, ⟨psMheadMem (L.header (σ.objSz si) b j), si⟩ :: σ.live⟩ (g.update si b xs' ys' F free) := by
  obtain ⟨st₁, pick, picked⟩ := kept.pick created source
  obtain ⟨st', xs', ys', run, taken, others, sizes, held⟩ := kept.take created picked tsc
  obtain ⟨notLive, place, after⟩ := kept.taken created picked taken sizes held
  have info := kept.info si created
  exact ⟨st', xs', ys', (biSlabAlloc_passed info.home info.holds pick tsc).trans run, taken, others, sizes, notLive, place, after⟩

/-- **An allocation** gives an object that is not live. -/
theorem Kept.alloc (kept : Kept L σ g) (created : si ∈ σ.infos) (room : g.fl si ≠ [] ∨ g.free ≠ []) (tsc : Nat) :
    ∃ p st' g', biSlabAlloc L σ.st si tsc = some (p, st') ∧ (∀ o ∈ σ.live, o.addr ≠ p) ∧
      (∀ k, (st'.infos k).objSz = (σ.st.infos k).objSz) ∧ Kept L ⟨st', σ.infos, ⟨p, si⟩ :: σ.live⟩ g' := by
  obtain ⟨b, j, F, xs, free, source⟩ := kept.source created room
  obtain ⟨st', _, _, run, _, _, sizes, notLive, _, after⟩ := kept.alloc_spec created source tsc
  exact ⟨_, st', _, run, notLive, sizes, after⟩

/-! ### Free -/

/-- The slab of an object, as its header says. -/
def Sys.slabOf (σ : Sys) (o : Obj) : Nat := σ.st.mem (psMheadGet o.addr + offSlab)

/-- The call does not empty a slab of one object that the list of full slabs begins with. -/
def EmptiesWell (σ : Sys) (o : Obj) : Prop := σ.nobjs o.si = 1 → (σ.st.infos o.si).el ≠ σ.slabOf o

/-- The books with the object `j` of the slab `b` given back. -/
theorem Kept.given (kept : Kept L σ g) {o : Obj} (live : o ∈ σ.live) {b : Block} {j : Nat} (place : g.Uses L σ.st o b j)
    {st' : State} {xs ys free : List Block} (sizes : ∀ k, (st'.infos k).objSz = (σ.st.infos k).objSz)
    (lists : ∀ a, a ≠ b → (a ∈ xs ++ ys ↔ a ∈ g.held o.si))
    (gone : b ∉ xs ++ ys → (j :: g.avail b).length = σ.nobjs o.si)
    (held : Held L st' σ.infos (g.update o.si b xs ys (j :: g.avail b) free)) :
    Kept L ⟨st', σ.infos, σ.live.erase o⟩ (g.update o.si b xs ys (j :: g.avail b) free) := by
  have created := ((kept.objects o).mp live).1
  have uses : ∀ {q : Obj}, q.si ∈ σ.infos → ∀ {a k}, (g.update o.si b xs ys (j :: g.avail b) free).Uses L st' q a k ↔ _ :=
    fun known => kept.uses_update created sizes lists (Or.inl place.1) known
  refine ⟨held, kept.live.erase o, fun q => ⟨fun member => ?_, ?_⟩⟩
  · obtain ⟨differ, old⟩ := (kept.live.mem_erase_iff).mp member
    obtain ⟨known, a, k, placeQ⟩ := (kept.objects q).mp old
    refine ⟨known, a, k, (uses known).mpr ?_⟩
    by_cases same : a = b
    · subst same
      have owner := kept.owner_unique known created placeQ.1 place.1
      have number : k ≠ j := by
        rintro rfl
        refine differ ?_
        have addr : q.addr = o.addr := by rw [placeQ.2.2.2, place.2.2.2, owner]
        cases q
        cases o
        simp_all
      obtain ⟨_, small, used, addr⟩ := placeQ
      rw [owner] at small addr
      have fresh : k ∉ j :: g.avail a := by simp [number, used]
      refine Or.inr ⟨rfl, owner, ?_, small, fresh, addr⟩
      -- were the slab gone, all its objects would be free
      by_contra returned
      have all := gone returned
      have slab := (kept.info _ created).slab a place.1
      have nodup : (k :: j :: g.avail a).Nodup :=
        List.nodup_cons.mpr ⟨fresh, List.nodup_cons.mpr ⟨place.2.2.1, slab.nodup⟩⟩
      have subset : k :: j :: g.avail a ⊆ List.range (biSlabNobjs (σ.st.infos o.si).objSz) := by
        intro i inside
        rcases List.mem_cons.mp inside with rfl | later
        · exact List.mem_range.mpr small
        · rcases List.mem_cons.mp later with rfl | free
          · exact List.mem_range.mpr place.2.1
          · exact List.mem_range.mpr (slab.bound i free)
      have short := (nodup.subperm subset).length_le
      simp only [List.length_cons, List.length_range, Sys.nobjs, Sys.objSz] at short all
      omega
    · exact Or.inl ⟨same, placeQ⟩
  · rintro ⟨known, a, k, placeQ⟩
    rw [kept.live.mem_erase_iff]
    rcases (uses known).mp placeQ with ⟨differ, old⟩ | ⟨rfl, owner, _, small, used, addr⟩
    · refine ⟨?_, (kept.objects q).mpr ⟨known, a, k, old⟩⟩
      rintro rfl
      exact differ (kept.uses_inj known known old place rfl).1
    · have number : k ≠ j := fun same => used (by simp [same])
      have old : g.Uses L σ.st q a k := by
        rw [← owner] at small addr
        exact ⟨owner ▸ place.1, small, fun free => used (by simp [free]), addr⟩
      refine ⟨?_, (kept.objects q).mpr ⟨known, a, k, old⟩⟩
      rintro rfl
      exact number (kept.uses_inj known known old place rfl).2.1

theorem Kept.slabOf_eq (kept : Kept L σ g) {o : Obj} (known : o.si ∈ σ.infos) {b : Block} {j : Nat} (place : g.Uses L σ.st o b j) :
    σ.slabOf o = L.block b := by
  rw [Sys.slabOf, place.2.2.2, psMheadGet, psMheadMem, Nat.add_sub_cancel]
  exact ((kept.info _ known).slab b place.1).owner j place.2.1

theorem biSlabFree_passed {st : State} {h : Nat} :
    biSlabFree L st (psMheadMem h) = psSlabMemFree L st (psMheadMem h) memMgrObjSz sizeofPsSlab := by
  have passed : (guard (psMheadMem h ≠ 0) : Option Unit) = some () := if_pos (by simp [psMheadMem, sizeofPsMheader])
  rw [biSlabFree, passed, Option.bind_eq_bind, Option.bind_some]

/-- A free that leaves the lists alone. -/
theorem Kept.free_keep (kept : Kept L σ g) {o : Obj} (live : o ∈ σ.live) {b : Block} {j : Nat} (place : g.Uses L σ.st o b j)
    (onFl : b ∈ g.fl o.si) (stays : (j :: g.avail b).length ≠ σ.nobjs o.si) :
    ∃ st', biSlabFree L σ.st o.addr = some st' ∧ st'.infos = σ.st.infos ∧
      Kept L ⟨st', σ.infos, σ.live.erase o⟩ (g.update o.si b (g.fl o.si) (g.el o.si) (j :: g.avail b) g.free) := by
  have created := ((kept.objects o).mp live).1
  have info := kept.info _ created
  obtain ⟨inHeld, bound, used, addr⟩ := place
  have distinct := List.nodup_append'.mp (kept.held_nodup created)
  have more : (j :: g.avail b).length < biSlabNobjs (σ.st.infos o.si).objSz := by
    have less := (info.partly b onFl).2
    simp only [List.length_cons, Sys.nobjs, Sys.objSz] at stays ⊢
    omega
  obtain ⟨m', run, slab', same⟩ :=
    psSlabMemFree_keep info.geometry (info.slab b inHeld) bound used info.notNull rfl info.home (info.partly b onFl).1 stays
  have touched : Untouched L b (g.held o.si) σ.st.mem m' := fun x away _ => same x (Or.inl away)
  refine ⟨{ σ.st with mem := m' }, ?_, rfl, ?_⟩
  · rw [addr, biSlabFree_passed]
    exact run
  refine kept.given live ⟨inHeld, bound, used, addr⟩ (fun _ => rfl) (fun a _ => Iff.rfl) (fun absent => absurd inHeld absent) ?_
  refine kept.change created (fun _ _ _ => rfl) touched (Or.inl inHeld) kept.pool (.refl _) ?_
  exact info.call rfl rfl (info.fl.frame_elsewhere same) (info.el.frame_elsewhere same) touched (fun _ => slab')
    (fun a member _ => member) (fun a member _ => member) (fun _ => ⟨by simp, more⟩)
    (fun onEl => absurd onEl (distinct.2.2 onFl)) info.nslabs

/-- The first free of a full slab moves it to the freelist. -/
theorem Kept.free_refill (kept : Kept L σ g) {o : Obj} (live : o ∈ σ.live) {b : Block} {j : Nat} (place : g.Uses L σ.st o b j)
    (onEl : b ∈ g.el o.si) (several : σ.nobjs o.si ≠ 1) :
    ∃ st' xs' ys ys', biSlabFree L σ.st o.addr = some st' ∧ (∀ k, (st'.infos k).objSz = (σ.st.infos k).objSz) ∧
      xs'.Perm (g.fl o.si) ∧ g.el o.si = ys ++ b :: ys' ∧
      Kept L ⟨st', σ.infos, σ.live.erase o⟩ (g.update o.si b (b :: xs') (ys ++ ys') [j] g.free) := by
  have created := ((kept.objects o).mp live).1
  have info := kept.info _ created
  have slab := info.slab b place.1
  have full := info.full b onEl
  obtain ⟨inHeld, bound, used, addr⟩ := place
  have distinct := List.nodup_append'.mp (kept.held_nodup created)
  rw [full] at slab
  obtain ⟨ys, zs, split⟩ := List.append_of_mem onEl
  have el := info.el
  rw [split] at el
  have apart : ∀ a ∈ g.fl o.si, a ∉ ys ++ b :: zs := by
    intro a member inside
    rw [← split] at inside
    exact distinct.2.2 member inside
  obtain ⟨m', f, e, xs', run, perm, fl', el', slab', same⟩ :=
    psSlabMemFree_refill (j := j) info.geometry slab bound info.notNull rfl info.home several info.fl el apart
  have more : ([j] : List Nat).length < biSlabNobjs (σ.st.infos o.si).objSz := by
    have many := info.holds.many
    simp only [List.length_singleton, Sys.nobjs, Sys.objSz] at several ⊢
    omega
  have notBoth : b ∉ ys ++ zs := by
    have nodup := el.ring.nodup
    rw [List.nodup_middle] at nodup
    exact (List.nodup_cons.mp nodup).1
  have moved : (b :: xs' ++ (ys ++ zs)).Perm (g.held o.si) := by
    rw [Books.held, split]
    refine .trans ?_ (List.Perm.append_left _ List.perm_middle.symm)
    exact .trans ((perm.append_right _).cons b) List.perm_middle.symm
  generalize after : ({ σ.st with mem := m' }.setInfo o.si { σ.st.infos o.si with fl := f, el := e } : State) = st' at run
  have infoAfter : st'.infos o.si = { σ.st.infos o.si with fl := f, el := e } := by
    rw [← after]
    exact Function.update_self _ _ _
  have others : ∀ k, k ≠ o.si → st'.infos k = σ.st.infos k := by
    intro k differ
    rw [← after]
    exact Function.update_of_ne differ _ _
  have sizes : ∀ k, (st'.infos k).objSz = (σ.st.infos k).objSz := by
    intro k
    by_cases same : k = o.si
    · rw [same, infoAfter]
    · rw [others k same]
  have mem : st'.mem = m' := by rw [← after]; rfl
  have touched : Untouched L b (g.held o.si) σ.st.mem st'.mem := by
    rw [mem, Books.held, split]
    exact same
  refine ⟨st', xs', ys, zs, ?_, sizes, perm, split, ?_⟩
  · rw [addr, biSlabFree_passed]
    exact run
  rw [← full] at more ⊢
  refine kept.given live ⟨inHeld, bound, used, addr⟩ sizes (fun a _ => moved.mem_iff) (fun absent => absurd (by simp) absent) ?_
  refine kept.change created (fun k _ differ => others k differ) touched (Or.inl inHeld) ?_ (moved.append_left _) ?_
  · rw [← after]
    exact kept.pool
  · refine info.call ?_ (sizes _) ?_ ?_ touched (fun _ => by rw [mem, full]; exact slab') ?_ ?_ (fun _ => ⟨by simp, more⟩)
      (fun member => absurd member notBoth) ?_
    · rw [infoAfter]
    · rw [mem, infoAfter]
      exact fl'
    · rw [mem, infoAfter]
      exact el'
    · exact fun a member differ => perm.subset ((List.mem_cons.mp member).resolve_left differ)
    · intro a member _
      rw [split]
      simp only [List.mem_append, List.mem_cons] at member ⊢
      tauto
    · rw [infoAfter, moved.length_eq]
      exact info.nslabs

/-- A free that gives the block back: the slab leaves its list, whose head has to be right afterwards. -/
theorem Kept.free_return (kept : Kept L σ g) {o : Obj} (live : o ∈ σ.live) {b : Block} {j : Nat} (place : g.Uses L σ.st o b j)
    (last : (j :: g.avail b).length = σ.nobjs o.si) {m' : Mem} {f e : Nat} {xs ys : List Block} {st' : State}
    (after : st' = { σ.st with mem := m', pool := memMgrFree L σ.st.pool (L.item b) }.setInfo o.si
      { σ.st.infos o.si with fl := f, el := e, nslabs := decr (σ.st.infos o.si).nslabs })
    (fl : SlabList L m' f xs) (el : SlabList L m' e ys) (moved : (b :: (xs ++ ys)).Perm (g.held o.si))
    (fewer : xs ⊆ g.fl o.si) (fewer' : ys ⊆ g.el o.si) (touched : Untouched L b (g.held o.si) σ.st.mem m') :
    (∀ k, (st'.infos k).objSz = (σ.st.infos k).objSz) ∧
      Kept L ⟨st', σ.infos, σ.live.erase o⟩ (g.update o.si b xs ys (j :: g.avail b) (g.free ++ [b])) := by
  have created := ((kept.objects o).mp live).1
  have info := kept.info _ created
  have absent : b ∉ xs ++ ys := (List.nodup_cons.mp (moved.nodup_iff.mpr (kept.held_nodup created))).1
  have infoAfter : st'.infos o.si = { σ.st.infos o.si with fl := f, el := e, nslabs := decr (σ.st.infos o.si).nslabs } := by
    rw [after]
    exact Function.update_self _ _ _
  have others : ∀ k, k ≠ o.si → st'.infos k = σ.st.infos k := by
    intro k differ
    rw [after]
    exact Function.update_of_ne differ _ _
  have sizes : ∀ k, (st'.infos k).objSz = (σ.st.infos k).objSz := by
    intro k
    by_cases same : k = o.si
    · rw [same, infoAfter]
    · rw [others k same]
  have mem : st'.mem = m' := by rw [after]; rfl
  have touched' : Untouched L b (g.held o.si) σ.st.mem st'.mem := by rwa [mem]
  refine ⟨sizes, kept.given live place sizes (fun a differ => ?_) (fun _ => last) ?_⟩
  · rw [← moved.mem_iff, List.mem_cons]
    exact (or_iff_right differ).symm
  · refine kept.change created (fun k _ differ => others k differ) touched' (Or.inl place.1) ?_ ?_ ?_
    · rw [after]
      exact kept.pool.freed (kept.not_free created place.1)
    · rw [List.append_assoc]
      exact List.Perm.append_left _ moved
    · refine info.call ?_ (sizes _) ?_ ?_ touched' (fun member => absurd member absent) (fun a member _ => fewer member)
        (fun a member _ => fewer' member) (fun member => absurd (List.mem_append_left _ member) absent)
        (fun member => absurd (List.mem_append_right _ member) absent) ?_
      · rw [infoAfter]
      · rw [mem, infoAfter]
        exact fl
      · rw [mem, infoAfter]
        exact el
      · have few := kept.held_length created
        have count := info.nslabs
        rw [← moved.length_eq, List.length_cons] at few count
        simp only [memMgrObjNum] at few
        rw [infoAfter]
        simp only [count]
        exact decr_eq (by simp only [u64]; omega)

/-- The last object of a slab of several: its block goes back to the pool. -/
theorem Kept.free_last (kept : Kept L σ g) {o : Obj} (live : o ∈ σ.live) {b : Block} {j : Nat} (place : g.Uses L σ.st o b j)
    {ys zs : List Block} (split : g.fl o.si = ys ++ b :: zs) (last : (j :: g.avail b).length = σ.nobjs o.si) :
    ∃ st', biSlabFree L σ.st o.addr = some st' ∧ (∀ k, k ≠ o.si → st'.infos k = σ.st.infos k) ∧
      (∀ k, (st'.infos k).objSz = (σ.st.infos k).objSz) ∧
      Kept L ⟨st', σ.infos, σ.live.erase o⟩ (g.update o.si b (ys ++ zs) (g.el o.si) (j :: g.avail b) (g.free ++ [b])) := by
  have created := ((kept.objects o).mp live).1
  have info := kept.info _ created
  have fl := info.fl
  rw [split] at fl
  obtain ⟨m', f, run, fl', same⟩ := psSlabMemFree_return info.geometry (info.slab b place.1) place.2.1 place.2.2.1 info.notNull
    rfl info.home last fl
  have el : SlabList L m' (σ.st.infos o.si).el (g.el o.si) := by
    refine info.el.frame fun a member => ?_
    have notFl : a ∉ ys ++ b :: zs := by
      rw [← split]
      exact fun inside => (List.nodup_append'.mp (kept.held_nodup created)).2.2 inside member
    have differ : a ≠ b := by
      rintro rfl
      exact notFl (by simp)
    obtain ⟨next, prev⟩ := links_apart L.slabNodes notFl
    have far := L.block_apart differ
    simp only [memMgrObjSz, Layout.slabNodes, offList, Untouched] at far same next prev ⊢
    exact ⟨same _ (by omega) next, same _ (by omega) prev⟩
  have moved : (b :: (ys ++ zs ++ g.el o.si)).Perm (g.held o.si) := by
    rw [Books.held, split, List.append_assoc, List.append_assoc]
    exact List.perm_middle.symm
  have fewer : ys ++ zs ⊆ g.fl o.si := by
    rw [split]
    intro a member
    simp only [List.mem_append, List.mem_cons] at member ⊢
    tauto
  have touched : Untouched L b (g.held o.si) σ.st.mem m' := by
    rw [Books.held, split]
    exact same.mono (List.subset_append_left _ _)
  obtain ⟨sizes, kept'⟩ := kept.free_return live place last rfl fl' el moved fewer (List.Subset.refl _) touched
  refine ⟨_, ?_, fun k differ => Function.update_of_ne differ _ _, sizes, kept'⟩
  rw [place.2.2.2, biSlabFree_passed]
  exact run

/-- The free of the only object of a slab, which is on the list of full slabs. -/
theorem Kept.free_only (kept : Kept L σ g) {o : Obj} (live : o ∈ σ.live) {b : Block} {j : Nat} (place : g.Uses L σ.st o b j)
    (one : σ.nobjs o.si = 1) :
    ∃ m' ys zs, g.el o.si = ys ++ b :: zs ∧
      biSlabFree L σ.st o.addr = some ({ σ.st with mem := m', pool := memMgrFree L σ.st.pool (L.item b) }.setInfo o.si
        { σ.st.infos o.si with nslabs := decr (σ.st.infos o.si).nslabs }) ∧
      SlabList L m' (σ.st.infos o.si).fl (g.fl o.si) ∧ Ring L.slabNodes m' (ys ++ zs) ∧
      Untouched L b (g.held o.si) σ.st.mem m' := by
  have created := ((kept.objects o).mp live).1
  have info := kept.info _ created
  obtain ⟨inHeld, bound, used, addr⟩ := place
  have distinct := List.nodup_append'.mp (kept.held_nodup created)
  have onEl : b ∈ g.el o.si := by
    refine (List.mem_append.mp inHeld).resolve_left fun onFl => ?_
    obtain ⟨notEmpty, less⟩ := info.partly b onFl
    have positive := List.length_pos_of_ne_nil notEmpty
    simp only [Sys.nobjs, Sys.objSz] at one
    omega
  obtain ⟨ys, zs, split⟩ := List.append_of_mem onEl
  have el := info.el
  rw [split] at el
  have slab := info.slab b inHeld
  rw [info.full b onEl] at slab
  have apart : ∀ a ∈ g.fl o.si, a ∉ ys ++ b :: zs := by
    intro a member inside
    rw [← split] at inside
    exact distinct.2.2 member inside
  obtain ⟨m', run, fl', ring, same⟩ :=
    psSlabMemFree_only (j := j) info.geometry slab bound info.notNull rfl info.home one info.fl el apart
  refine ⟨m', ys, zs, split, ?_, fl', ring, same.mono ?_⟩
  · rw [addr, biSlabFree_passed]
    exact run
  · rw [← split]
    exact List.subset_append_right _ _

/-- The only object of a slab that the list of full slabs does not begin with: the head of the list stays right. -/
theorem Kept.free_only_well (kept : Kept L σ g) {o : Obj} (live : o ∈ σ.live) {b : Block} {j : Nat} (place : g.Uses L σ.st o b j)
    (last : (j :: g.avail b).length = σ.nobjs o.si) (one : σ.nobjs o.si = 1) (differ : (σ.st.infos o.si).el ≠ L.block b) :
    ∃ st' g', biSlabFree L σ.st o.addr = some st' ∧ (∀ k, (st'.infos k).objSz = (σ.st.infos k).objSz) ∧
      Kept L ⟨st', σ.infos, σ.live.erase o⟩ g' := by
  obtain ⟨m', ys, zs, split, run, fl, ring, touched⟩ := kept.free_only live place one
  have head := (kept.info _ ((kept.objects o).mp live).1).el.head
  obtain ⟨y, rest, rfl⟩ : ∃ y rest, ys = y :: rest := by
    cases ys with
    | nil =>
      rw [split, List.nil_append, L.first_cons] at head
      exact absurd head differ
    | cons y rest => exact ⟨y, rest, rfl⟩
  have el : SlabList L m' (σ.st.infos o.si).el (y :: rest ++ zs) := by
    refine ⟨ring, ?_⟩
    rw [split, List.cons_append, L.first_cons] at head
    rw [List.cons_append, L.first_cons]
    exact head
  have moved : (b :: (g.fl o.si ++ (y :: rest ++ zs))).Perm (g.held o.si) := by
    rw [Books.held, split]
    exact .trans (List.perm_middle.symm) (List.Perm.append_left _ List.perm_middle.symm)
  have fewer : y :: rest ++ zs ⊆ g.el o.si := by
    rw [split]
    intro a member
    simp only [List.mem_append, List.mem_cons] at member ⊢
    tauto
  obtain ⟨sizes, kept'⟩ := kept.free_return live place last rfl fl el moved (List.Subset.refl _) fewer touched
  exact ⟨_, _, run, sizes, kept'⟩

/-- **A free** of a live object succeeds and keeps the books, unless it empties a slab of one object that
the list of full slabs begins with. -/
theorem Kept.free (kept : Kept L σ g) {o : Obj} (live : o ∈ σ.live) (well : EmptiesWell σ o) :
    ∃ st' g', biSlabFree L σ.st o.addr = some st' ∧ (∀ k, (st'.infos k).objSz = (σ.st.infos k).objSz) ∧
      Kept L ⟨st', σ.infos, σ.live.erase o⟩ g' := by
  obtain ⟨created, b, j, place⟩ := (kept.objects o).mp live
  have info := kept.info _ created
  by_cases last : (j :: g.avail b).length = σ.nobjs o.si
  · by_cases one : σ.nobjs o.si = 1
    · have differ := well one
      rw [kept.slabOf_eq created place] at differ
      exact kept.free_only_well live place last one differ
    · have onFl : b ∈ g.fl o.si := by
        refine (List.mem_append.mp place.1).resolve_right fun onEl => ?_
        rw [info.full b onEl] at last
        exact one (by simpa using last.symm)
      obtain ⟨ys, zs, split⟩ := List.append_of_mem onFl
      obtain ⟨st', run, _, sizes, kept'⟩ := kept.free_last live place split last
      exact ⟨st', _, run, sizes, kept'⟩
  · rcases List.mem_append.mp place.1 with onFl | onEl
    · obtain ⟨st', run, same, kept'⟩ := kept.free_keep live place onFl last
      exact ⟨st', _, run, fun k => by rw [same], kept'⟩
    · rw [info.full b onEl] at last
      have several : σ.nobjs o.si ≠ 1 := fun one => last (by simpa using one.symm)
      obtain ⟨st', _, _, _, run, sizes, _, _, kept'⟩ := kept.free_refill live place onEl several
      exact ⟨st', _, run, sizes, kept'⟩

end

end BiProject.Slab
