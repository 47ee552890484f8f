import BiProject.Slab.Runs

/-!
# The lists of an info

Which list a slab is on is decided by its count of free objects. The lists are right as long as no call
empties a slab of one object that the list of full slabs begins with: `__ps_slab_mem_free` takes the slab
out of its ring through the freelist's head, and the other head stays at the returned block.
-/

namespace BiProject.Slab
set_option autoImplicit false
open BiProject.Lib.ListMem

/-- The info `si` holds the block `b`: it is not in the pool, and its slab header names `si`. -/
def Sys.Holds (L : Layout) (σ : Sys) (free : List Block) (si : Nat) (b : Block) : Prop :=
  b ∉ free ∧ σ.st.mem (L.block b + offSi) = si

/-- The slabs `xs` are on the freelist of the info and the slabs `ys` on its other list. Both are rings of
slabs it holds, with no slab in common, and a slab is on the one its count says. -/
structure InfoLists (L : Layout) (σ : Sys) (free : List Block) (si : Nat) (xs ys : List Block) : Prop where
  fl : SlabList L σ.st.mem (σ.st.infos si).fl xs
  el : SlabList L σ.st.mem (σ.st.infos si).el ys
  once : (xs ++ ys).Nodup
  held : ∀ b ∈ xs ++ ys, σ.Holds L free si b
  full : ∀ b, σ.Holds L free si b → σ.st.mem (L.block b + offNfree) = 0 → b ∈ ys ∧ b ∉ xs
  partly : ∀ b, σ.Holds L free si b → 0 < σ.st.mem (L.block b + offNfree) →
    σ.st.mem (L.block b + offNfree) < σ.nobjs si → b ∈ xs ∧ b ∉ ys
  returned : ∀ b, σ.Holds L free si b → σ.st.mem (L.block b + offNfree) < σ.nobjs si

/-- The lists of all infos are right. -/
def ListsRight (L : Layout) (σ : Sys) : Prop :=
  ∃ free, Pool L σ.st.pool free ∧ ∀ si ∈ σ.infos, ∃ xs ys, InfoLists L σ free si xs ys

section
variable {L : Layout} {σ : Sys} {g : Books} {si : Nat}

/-- The slabs of an info are the blocks it holds. -/
theorem Kept.holds_iff (kept : Kept L σ g) (created : si ∈ σ.infos) (b : Block) : σ.Holds L g.free si b ↔ b ∈ g.held si := by
  constructor
  · rintro ⟨used, owner⟩
    have somewhere : b ∈ g.free ++ σ.infos.flatMap g.held := kept.once.mem_iff.mpr (List.mem_finRange b)
    obtain ⟨k, known, slab⟩ := List.mem_flatMap.mp ((List.mem_append.mp somewhere).resolve_left used)
    have named := ((kept.info k known).slab b slab).info
    rwa [← owner, named]
  · exact fun slab => ⟨kept.not_free created slab, ((kept.info si created).slab b slab).info⟩

theorem Kept.infoLists (kept : Kept L σ g) (created : si ∈ σ.infos) : InfoLists L σ g.free si (g.fl si) (g.el si) := by
  have info := kept.info si created
  have once := kept.held_nodup created
  have apart := (List.nodup_append'.mp once).2.2
  have count : ∀ b, σ.Holds L g.free si b → b ∈ g.held si ∧ σ.st.mem (L.block b + offNfree) = (g.avail b).length := by
    intro b holds
    have slab := (kept.holds_iff created b).mp holds
    exact ⟨slab, (info.slab b slab).nfree⟩
  have onFl : ∀ b ∈ g.fl si, 0 < (g.avail b).length ∧ (g.avail b).length < σ.nobjs si := fun b member =>
    ⟨List.length_pos_iff.mpr (info.partly b member).1, (info.partly b member).2⟩
  have onEl : ∀ b ∈ g.el si, (g.avail b).length = 0 := fun b member => by rw [info.full b member]; rfl
  refine ⟨info.fl, info.el, once, fun b slab => (kept.holds_iff created b).mpr slab, ?_, ?_, ?_⟩
  · intro b holds zero
    obtain ⟨slab, nfree⟩ := count b holds
    rcases List.mem_append.mp slab with partly | full
    · have some := (onFl b partly).1
      omega
    · exact ⟨full, fun partly => apart partly full⟩
  · intro b holds pos _
    obtain ⟨slab, nfree⟩ := count b holds
    rcases List.mem_append.mp slab with partly | full
    · exact ⟨partly, fun full => apart partly full⟩
    · have none := onEl b full
      omega
  · intro b holds
    obtain ⟨slab, nfree⟩ := count b holds
    rcases List.mem_append.mp slab with partly | full
    · rw [nfree]
      exact (onFl b partly).2
    · rw [nfree, onEl b full]
      exact info.holds.many

theorem Kept.listsRight (kept : Kept L σ g) : ListsRight L σ :=
  ⟨g.free, kept.pool, fun _ created => ⟨_, _, kept.infoLists created⟩⟩

/-- A list head at a block of the pool is not right. -/
theorem ListsRight.head_not_free (right : ListsRight L σ) (created : si ∈ σ.infos) {free : List Block}
    (pool : Pool L σ.st.pool free) {b : Block} (head : (σ.st.infos si).el = L.block b) : b ∉ free := by
  obtain ⟨free', pool', lists⟩ := right
  obtain rfl := pool.unique pool'
  obtain ⟨xs, ys, lists⟩ := lists si created
  have first := lists.el.head
  cases ys with
  | nil =>
    rw [head, L.first_nil] at first
    exact absurd first (L.block_pos b)
  | cons a rest =>
    rw [head, L.first_cons] at first
    have here : b = a := L.block_inj first
    exact (lists.held b (by simp [here])).1

/-- A call that empties the only object's slab with the wrong head leaves this head dangling. -/
theorem Kept.free_dangles (kept : Kept L σ g) {o : Obj} (live : o ∈ σ.live) (one : σ.nobjs o.si = 1)
    (head : (σ.st.infos o.si).el = σ.slabOf o) :
    ∃ st', biSlabFree L σ.st o.addr = some st' ∧ ¬ ListsRight L ⟨st', σ.infos, σ.live.erase o⟩ := by
  obtain ⟨created, b, j, place⟩ := (kept.objects o).mp live
  obtain ⟨m', ys, zs, _, run, _⟩ := kept.free_only live place one
  refine ⟨_, run, fun right => ?_⟩
  rw [kept.slabOf_eq created place] at head
  have pool := kept.pool.freed (kept.not_free created place.1)
  have back : b ∈ g.free ++ [b] := by simp
  refine right.head_not_free created pool ?_ back
  simpa [State.setInfo] using head

/-- **The lists are right** in every state of a run in which no call empties a slab of one object that
the list of full slabs begins with, and a call that does makes them wrong. -/
theorem slab_lists_right (L : Layout) (σ : Sys) (run : Run L 1 EmptiesWell σ) :
    ListsRight L σ ∧ ∀ o ∈ σ.live, ∃ st', biSlabFree L σ.st o.addr = some st' ∧
      (ListsRight L ⟨st', σ.infos, σ.live.erase o⟩ ↔ EmptiesWell σ o) := by
  obtain ⟨⟨g, kept⟩, _⟩ := run.kept (Nat.le_refl 1) fun _ _ _ well => well
  refine ⟨kept.listsRight, fun o live => ?_⟩
  by_cases well : EmptiesWell σ o
  · obtain ⟨st', g', called, _, kept'⟩ := kept.free live well
    exact ⟨st', called, fun _ => well, fun _ => kept'.listsRight⟩
  · obtain ⟨one, head⟩ := Classical.not_imp.mp well
    obtain ⟨st', called, wrong⟩ := kept.free_dangles live one (not_not.mp head)
    exact ⟨st', called, fun right => absurd right wrong, fun here => absurd here well⟩

end

/-! ## A slab of one object -/

theorem psSlabObjmemsz_large : psSlabObjmemsz 600000 = 600064 := by decide

theorem biSlabNobjs_large : biSlabNobjs 600000 = 1 := by
  rw [biSlabNobjs, psSlabMaxNobjs, psSlabObjmemsz_large]
  decide

/-- The list of full slabs begins with the slab of the only object. -/
theorem Kept.el_eq_slabOf {L : Layout} {st : State} {g : Books} {p : Nat} (kept : Kept L ⟨st, [1], [⟨p, 1⟩]⟩ g)
    (one : biSlabNobjs (st.infos 1).objSz = 1) : (st.infos 1).el = Sys.slabOf ⟨st, [1], [⟨p, 1⟩]⟩ ⟨p, 1⟩ := by
  have created : 1 ∈ [1] := List.mem_cons_self
  have info := kept.info 1 created
  obtain ⟨_, b, j, place⟩ := (kept.objects ⟨p, 1⟩).mp List.mem_cons_self
  have noPartly : ∀ a, a ∉ g.fl 1 := by
    intro a member
    obtain ⟨some, few⟩ := info.partly a member
    have pos := List.length_pos_iff.mpr some
    rw [one] at few
    omega
  have onEl : b ∈ g.el 1 := (List.mem_append.mp place.1).resolve_left (noPartly b)
  -- the object of any full slab is live, so it is the object of this slab
  have only : ∀ a ∈ g.el 1, a = b := by
    intro a member
    have uses : g.Uses L st ⟨psMheadMem (L.header (st.infos 1).objSz a 0), 1⟩ a 0 :=
      ⟨List.mem_append_right _ member, by rw [one]; exact Nat.one_pos, by rw [info.full a member]; exact List.not_mem_nil, rfl⟩
    have live := (kept.objects _).mpr ⟨created, a, 0, uses⟩
    have same := congrArg Obj.addr (List.mem_singleton.mp live)
    exact (kept.uses_inj created created uses place same).1
  rw [kept.slabOf_eq created place, info.el.head]
  cases list : g.el 1 with
  | nil => simp [list] at onEl
  | cons a rest => rw [L.first_cons, only a (by simp [list])]

/-- With objects of 600000 bytes a block holds one: allocating it and freeing it leaves `el` at the block that
is back in the pool. -/
theorem slab_lists_dangle :
    ∃ st st₁ p st₂ st₃, biSlabCreate smallLayout st 1 600000 = some st₁ ∧ biSlabAlloc smallLayout st₁ 1 0 = some (p, st₂) ∧
      biSlabFree smallLayout st₂ p = some st₃ ∧ Run smallLayout 1 (fun _ _ => True) ⟨st₃, [1], []⟩ ∧
      ¬ ListsRight smallLayout ⟨st₃, [1], []⟩ := by
  have holds : HoldsAtLeast 1 600000 := ⟨by decide, by rw [biSlabNobjs_large]⟩
  obtain ⟨st, st₁, p, st₂, g, create, alloc, run, size, kept⟩ :=
    exists_first_object (L := smallLayout) holds (Nat.le_refl 1) (by rw [psSlabObjmemsz_large]; decide) fun _ _ => True
  have one : biSlabNobjs (st₂.infos 1).objSz = 1 := by rw [size, biSlabNobjs_large]
  obtain ⟨st₃, free, wrong⟩ := kept.free_dangles List.mem_cons_self one (kept.el_eq_slabOf one)
  have next := run.step (.free List.mem_cons_self trivial free)
  simp only [List.erase_cons_head] at next wrong
  exact ⟨st, st₁, p, st₂, st₃, create, alloc, free, next, wrong⟩

/-- Two objects to a block: the lists are right when a slab is full, and when it is refilled. -/
theorem slab_lists_right_refill :
    ∃ full σ : Sys, Run smallLayout 1 EmptiesWell full ∧ (full.st.infos 2).fl = 0 ∧ (full.st.infos 2).el ≠ 0 ∧
      Step smallLayout 1 EmptiesWell full σ ∧ σ.live.length = 1 ∧ (σ.st.infos 2).fl ≠ 0 ∧ (σ.st.infos 2).el = 0 ∧
      ListsRight smallLayout full ∧ ListsRight smallLayout σ ∧ ∀ o ∈ σ.live, ∃ st', biSlabFree smallLayout σ.st o.addr = some st' ∧
        (ListsRight smallLayout ⟨st', σ.infos, σ.live.erase o⟩ ↔ EmptiesWell σ o) := by
  have small : HoldsAtLeast 1 64 := ⟨by decide, by rw [biSlabNobjs_small]; decide⟩
  have two : HoldsAtLeast 1 500000 := ⟨by decide, by rw [biSlabNobjs_two]; decide⟩
  obtain ⟨st, g, b, o, o', run, kept, noFl, el, _, place, info, _, size⟩ :=
    exists_full_slab smallLayout small two (Nat.le_refl 1) (by rw [psSlabObjmemsz_small]; decide) EmptiesWell
  have several : Sys.nobjs ⟨st, [2, 1], [o', o]⟩ o.si ≠ 1 := by
    rw [info, Sys.nobjs, Sys.objSz, size, biSlabNobjs_two]
    decide
  obtain ⟨st', xs, ys, ys', free, _, perm, split, kept'⟩ := kept.free_refill (by simp) place (by simp [info, el]) several
  have next : Step smallLayout 1 EmptiesWell ⟨st, [2, 1], [o', o]⟩ ⟨st', [2, 1], [o', o].erase o⟩ :=
    .free (by simp) (fun one => absurd one several) free
  rw [info] at perm split kept'
  rw [noFl] at perm
  rw [el] at split
  obtain ⟨rfl, rfl⟩ : ys = [] ∧ ys' = [] := by
    cases ys with
    | nil => exact ⟨rfl, (List.cons.inj split).2.symm⟩
    | cons y rest => simp at split
  have head := (kept'.info 2 (by simp)).fl.head
  have head' := (kept'.info 2 (by simp)).el.head
  have before := (kept.info 2 (by simp)).fl.head
  have before' := (kept.info 2 (by simp)).el.head
  simp only [Books.update_fl, Books.update_el, List.append_nil, Layout.first_nil, Layout.first_cons, noFl, el] at head head' before before'
  obtain ⟨right, _⟩ := slab_lists_right smallLayout _ run
  obtain ⟨right', frees⟩ := slab_lists_right smallLayout _ (run.step next)
  refine ⟨_, _, run, before, ?_, next, ?_, ?_, head', right, right', frees⟩
  · rw [before']
    exact smallLayout.block_pos b
  · rw [List.length_erase_of_mem (by simp)]
    rfl
  · rw [head]
    exact smallLayout.block_pos b

end BiProject.Slab
