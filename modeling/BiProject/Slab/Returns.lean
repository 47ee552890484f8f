import BiProject.Slab.Runs

/-!
# Blocks come back

A slab goes back to the pool with its last object. So every block that is out has a live object, and an allocation fails only when all
blocks have one and the slabs of its info are full.
-/

namespace BiProject.Slab
set_option autoImplicit false

section
variable {L : Layout} {σ : Sys} {g : Books} {si : Nat} {b : Block}

theorem Kept.slab_in_use (kept : Kept L σ g) (created : si ∈ σ.infos) (slab : b ∈ g.held si) : σ.liveIn L si b ≠ [] := by
  have info := kept.info si created
  have total := kept.liveIn_length created slab
  have many := info.holds.many
  intro none
  rw [none, List.length_nil] at total
  rcases List.mem_append.mp slab with partly | full
  · have less := (info.partly b partly).2
    rw [Sys.nobjs, Sys.objSz] at total
    omega
  · rw [info.full b full, List.length_nil, Sys.nobjs, Sys.objSz] at total
    omega

/-- A live object is in one block of its info. -/
theorem liveIn_unique {si' : Nat} {b' : Block} {o : Obj} (here : o ∈ σ.liveIn L si b) (there : o ∈ σ.liveIn L si' b') :
    b = b' := by
  simp only [Sys.liveIn, List.mem_filter, decide_eq_true_eq] at here there
  by_contra differ
  have far := L.block_apart differ
  omega

/-- No more blocks are out than objects are live. -/
theorem Kept.out_le_live (kept : Kept L σ g) : (σ.infos.flatMap g.held).length ≤ σ.live.length := by
  have object : ∀ b, ∃ o, b ∈ σ.infos.flatMap g.held → ∃ si, o ∈ σ.liveIn L si b := by
    intro b
    by_cases out : b ∈ σ.infos.flatMap g.held
    · obtain ⟨si, created, slab⟩ := List.mem_flatMap.mp out
      obtain ⟨o, member⟩ := List.exists_mem_of_ne_nil _ (kept.slab_in_use created slab)
      exact ⟨o, fun _ => ⟨si, member⟩⟩
    · exact ⟨⟨0, 0⟩, fun member => absurd member out⟩
  choose f inside using object
  have nodup : (σ.infos.flatMap g.held).Nodup := (List.nodup_append.mp kept.distinct).2.1
  have mapped : ((σ.infos.flatMap g.held).map f).Nodup := by
    apply (List.nodup_map_iff_inj_on nodup).mpr
    intro b out b' out' same
    obtain ⟨si, member⟩ := inside b out
    obtain ⟨si', member'⟩ := inside b' out'
    rw [← same] at member'
    exact liveIn_unique member member'
  have live : (σ.infos.flatMap g.held).map f ⊆ σ.live := by
    intro o member
    obtain ⟨b, out, rfl⟩ := List.mem_map.mp member
    obtain ⟨si, here⟩ := inside b out
    exact List.mem_of_mem_filter here
  have fewer := (mapped.subperm live).length_le
  rwa [List.length_map] at fewer

end

/-- **Blocks come back, and an allocation fails only when it has to**, while a slab holds at least two objects. In every state of a run
each block that is out has a live object, so there are at least as many blocks in the pool as are not needed for one live object each,
all of them when nothing is live; and where `bi_slab_alloc` fails, the pool is empty, there are as many live objects as blocks, and every
slab of the info is full. -/
theorem slab_fails_only_full (L : Layout) (σ : Sys) (run : Run L 2 (fun _ _ => True) σ) :
    ∃ held free, Correct L σ held free ∧ (∀ si ∈ σ.infos, ∀ b ∈ held si, σ.liveIn L si b ≠ []) ∧
      memMgrObjNum ≤ free.length + σ.live.length ∧ (σ.live = [] → free.Perm (List.finRange memMgrObjNum)) ∧
      ∀ si ∈ σ.infos, ∀ tsc, biSlabAlloc L σ.st si tsc = none →
        free = [] ∧ memMgrObjNum ≤ σ.live.length ∧ ∀ b ∈ held si, (σ.liveIn L si b).length = σ.nobjs si := by
  have several : ∀ σ : Sys, ∀ o : Obj, 2 ≤ σ.nobjs o.si → True → EmptiesWell σ o := by
    intro σ o many _ one
    omega
  obtain ⟨⟨g, kept⟩, _⟩ := run.kept (by decide) several
  have bound := kept.out_le_live
  have all := kept.once.length_eq
  rw [List.length_append, List.length_finRange] at all
  refine ⟨_, _, kept.correct, fun si created b slab => kept.slab_in_use created slab, by omega, ?_, ?_⟩
  · intro none
    rw [none, List.length_nil, Nat.le_zero, List.length_eq_zero_iff] at bound
    have perm := kept.once
    rwa [bound, List.append_nil] at perm
  · intro si created tsc fails
    have noRoom : ¬ (g.fl si ≠ [] ∨ g.free ≠ []) := by
      intro room
      obtain ⟨p, st', _, called, _⟩ := kept.alloc created room tsc
      rw [called] at fails
      cases fails
    simp only [not_or, not_not] at noRoom
    obtain ⟨noSlab, noBlock⟩ := noRoom
    rw [noBlock, List.length_nil] at all
    refine ⟨noBlock, by omega, ?_⟩
    intro b slab
    have total := kept.liveIn_length created slab
    rw [Books.held, noSlab, List.nil_append] at slab
    rwa [(kept.info si created).full b slab, List.length_nil, Nat.zero_add] at total

/-- Allocation after allocation, the blocks of the pool become full slabs. -/
theorem exhausts {L : Layout} (free : List Block) {st : State} {live : List Obj} {g : Books}
    (run : Run L 2 (fun _ _ => True) ⟨st, [2, 1], live⟩) (kept : Kept L ⟨st, [2, 1], live⟩ g) (noFl : g.fl 2 = [])
    (two : biSlabNobjs (st.infos 2).objSz = 2) (pooled : g.free = free) :
    ∃ st' live' g', Run L 2 (fun _ _ => True) ⟨st', [2, 1], live'⟩ ∧ Kept L ⟨st', [2, 1], live'⟩ g' ∧ g'.fl 2 = [] ∧
      g'.free = [] := by
  induction free generalizing st live g with
  | nil => exact ⟨st, live, g, run, kept, noFl, pooled⟩
  | cons b rest ih =>
    obtain ⟨p, q, st₁, st₂, _, g₂, alloc, alloc₂, size, kept₂, fl₂, _, _, free₂, _⟩ := kept.fill (by simp) noFl pooled two
    have run₁ : Run L 2 (fun _ _ => True) ⟨st₁, [2, 1], ⟨p, 2⟩ :: live⟩ := run.step (.alloc (by simp) alloc)
    have run₂ : Run L 2 (fun _ _ => True) ⟨st₂, [2, 1], ⟨q, 2⟩ :: ⟨p, 2⟩ :: live⟩ := run₁.step (.alloc (by simp) alloc₂)
    exact ih run₂ kept₂ fl₂ ((congrArg biSlabNobjs size).trans two) free₂

/-- With all blocks out an allocation fails. -/
theorem slab_fails_only_full_exhausted : ∃ σ : Sys, Run smallLayout 2 (fun _ _ => True) σ ∧ biSlabAlloc smallLayout σ.st 2 0 = none ∧
    memMgrObjNum ≤ σ.live.length ∧ ∃ held, Correct smallLayout σ held [] ∧
      ∀ b ∈ held 2, (σ.liveIn smallLayout 2 b).length = σ.nobjs 2 := by
  have small : HoldsAtLeast 2 64 := ⟨by decide, by rw [biSlabNobjs_small]; decide⟩
  have two : HoldsAtLeast 2 500000 := ⟨by decide, by rw [biSlabNobjs_two]⟩
  obtain ⟨st, g, b, b', rest, run, kept, _, noneC, _, _, infoC⟩ := exists_two_infos smallLayout small two (by decide)
    (by rw [psSlabObjmemsz_small]; decide) (by rw [psSlabObjmemsz_two]; decide) fun _ _ => True
  obtain ⟨st', live, g', run', kept', noFl, noBlock⟩ := exhausts g.free run kept (List.append_eq_nil_iff.mp noneC).1
    (by rw [infoC, biSlabNobjs_two]) rfl
  have fails := kept'.alloc_fails (by simp) noFl noBlock 0
  obtain ⟨held, free, correct, _, _, _, full⟩ := slab_fails_only_full smallLayout _ run'
  obtain ⟨rfl, many, objects⟩ := full 2 (by simp) 0 fails
  exact ⟨_, run', fails, many, held, correct, objects⟩

end BiProject.Slab
