import BiProject.Slab.Reuse

/-!
# The sizes the allocator admits

`bi_slab_create`, `__ps_slab_mem_alloc` and `__ps_slab_mem_free` each assert something else about `obj_sz`. The
first compares the rounded size with a whole block and the second leaves the memory header out, so together they
let sizes through of which a slab holds no object, and sizes whose sum with a header wraps. Only the assertion of
the third is the one the layout needs.

A size that is served can still go wrong in a run: when the only object of a slab is freed and `el` keeps pointing to
it, the slab's block comes back as a slab of another info, a full slab gets into its list, and `nfree` is counted down
from 0.
-/

namespace BiProject.Slab
set_option autoImplicit false
open BiProject.Lib.ListMem

/-- The assertions of `bi_slab_create` and at the head of `__ps_slab_mem_alloc`. -/
structure Admitted (objSz : Nat) : Prop where
  width : objSz < u64
  create : psSlabObjmemsz objSz < memMgrObjSz
  alloc : (objSz + sizeofPsSlab) % u64 ≤ memMgrObjSz

/-- Where `__ps_slab_init` puts the header of an object, from the beginning of the block. -/
def objOffset (objSz j : Nat) : Nat := sizeofPsSlab + j * psSlabObjmemsz objSz

/-- A slab can serve objects of this size: it has room for one, its objects are behind its header and end inside the
block, and `__ps_slab_mem_free` takes them back. Where the rounded size is 0 the divisions fail, so there is no room. -/
structure Serves (objSz : Nat) : Prop where
  divisor : psSlabObjmemsz objSz ≠ 0
  room : 1 ≤ biSlabNobjs objSz
  inside : ∀ j < biSlabNobjs objSz, sizeofPsSlab ≤ objOffset objSz j ∧
    objOffset objSz j + sizeofPsMheader + objSz ≤ memMgrObjSz
  free : (psSlabObjmemsz objSz + sizeofPsSlab) % u64 ≤ memMgrObjSz

/-- A state serves an info: its live objects and the one `bi_slab_alloc` returns next are objects of slabs, at the offsets
`Serves` speaks of, each slab counts at most its objects as free, and the slab an allocation takes from has one. -/
structure ServedIn (L : Layout) (σ : Sys) (si : Nat) : Prop where
  live : ∀ o ∈ σ.live, o.si = si → ∃ b : Block, ∃ j < σ.nobjs si, psMheadGet o.addr = L.block b + objOffset (σ.objSz si) j
  next : ∀ tsc p st', biSlabAlloc L σ.st si tsc = some (p, st') →
    ∃ b : Block, ∃ j < σ.nobjs si, psMheadGet p = L.block b + objOffset (σ.objSz si) j
  nfree : ∀ s st, psSlabPick L σ.st si memMgrObjSz sizeofPsSlab = some (s, st) →
    0 < st.mem (s + offNfree) ∧ st.mem (s + offNfree) ≤ σ.nobjs si

/-- The largest size with room for one object behind the two headers. -/
def maxObjSz : Nat := memMgrObjSz - sizeofPsSlab - sizeofPsMheader

section
variable {L : Layout} {σ : Sys} {g : Books} {si objSz : Nat}

theorem HoldsAtLeast.of_le (small : objSz ≤ maxObjSz) : HoldsAtLeast 1 objSz := by
  simp only [maxObjSz, memMgrObjSz, sizeofPsSlab, sizeofPsMheader] at small
  have size := psSlabObjmemsz_eq objSz
  simp only [sizeofPsMheader, u64] at size
  refine ⟨by simp only [memMgrObjSz]; omega, ?_⟩
  refine (Nat.le_div_iff_mul_le ?_).mpr ?_
  · omega
  · simp only [memMgrObjSz, sizeofPsSlab]
    omega

/-- The sizes of which a slab holds an object. -/
theorem holdsAtLeast_one_iff : HoldsAtLeast 1 objSz ↔ objSz ≤ maxObjSz := by
  refine ⟨fun holds => ?_, HoldsAtLeast.of_le⟩
  have geo := holds.geometry
  have inside := geo.inside
  have object := geo.object
  have one : 1 * psSlabObjmemsz objSz ≤ biSlabNobjs objSz * psSlabObjmemsz objSz := Nat.mul_le_mul_right _ holds.many
  simp only [maxObjSz]
  omega

/-! ## Every run -/

/-- An object of an info is at one of the offsets. -/
theorem header_offset (b : Block) (j : Nat) : psMheadGet (psMheadMem (L.header objSz b j)) = L.block b + objOffset objSz j := by
  rw [psMheadGet, psMheadMem, Nat.add_sub_cancel, Layout.header, objOffset, Nat.add_assoc]

/-- What there is to allocate from, if a slab is picked at all. -/
theorem Kept.picks (kept : Kept L σ g) (created : si ∈ σ.infos) {s : Nat} {st : State}
    (pick : psSlabPick L σ.st si memMgrObjSz sizeofPsSlab = some (s, st)) : g.fl si ≠ [] ∨ g.free ≠ [] := by
  by_contra neither
  rw [not_or, not_not, not_not] at neither
  rw [kept.pick_fails created neither.1 neither.2] at pick
  cases pick

/-- A slab an allocation takes from has a free object. -/
theorem Kept.pick_nfree (kept : Kept L σ g) (created : si ∈ σ.infos) {s : Nat} {st : State}
    (pick : psSlabPick L σ.st si memMgrObjSz sizeofPsSlab = some (s, st)) :
    0 < st.mem (s + offNfree) ∧ st.mem (s + offNfree) ≤ σ.nobjs si := by
  obtain ⟨b, j, F, xs, free, source⟩ := kept.source created (kept.picks created pick)
  obtain ⟨st₁, pick', picked⟩ := kept.pick created source
  obtain ⟨rfl, rfl⟩ := Prod.mk.inj (Option.some.inj (pick.symm.trans pick'))
  rw [picked.slab.nfree]
  exact ⟨by simp, picked.slab.length_le⟩

theorem Kept.servedIn (kept : Kept L σ g) (created : si ∈ σ.infos) : ServedIn L σ si := by
  refine ⟨fun o live mine => ?_, fun tsc p st' run => ?_, fun s st pick => kept.pick_nfree created pick⟩
  · obtain ⟨_, b, j, _, bound, _, addr⟩ := (kept.objects o).mp live
    rw [mine] at bound addr
    exact ⟨b, j, bound, by rw [addr]; exact header_offset b j⟩
  · have room : g.fl si ≠ [] ∨ g.free ≠ [] := by
      by_contra neither
      rw [not_or, not_not, not_not] at neither
      rw [kept.alloc_fails created neither.1 neither.2] at run
      cases run
    obtain ⟨b, j, F, xs, free, source⟩ := kept.source created room
    obtain ⟨st₁, _, picked⟩ := kept.pick created source
    obtain ⟨st'', _, _, run', _⟩ := kept.alloc_spec created source tsc
    obtain ⟨rfl, -⟩ := Prod.mk.inj (Option.some.inj (run.symm.trans run'))
    exact ⟨b, j, picked.slab.bound j (by simp), header_offset b j⟩

/-! ## The sizes -/

theorem serves_of_le (small : objSz ≤ maxObjSz) : Serves objSz := by
  have holds := HoldsAtLeast.of_le small
  have geo := holds.geometry
  have line := geo.line
  refine ⟨by omega, holds.many, fun j bound => ⟨Nat.le_add_right _ _, ?_⟩, ?_⟩
  · have last : (j + 1) * psSlabObjmemsz objSz ≤ biSlabNobjs objSz * psSlabObjmemsz objSz := Nat.mul_le_mul_right _ bound
    have object := geo.object
    have inside := geo.inside
    rw [Nat.succ_mul] at last
    simp only [objOffset]
    omega
  · have whole : 1 * psSlabObjmemsz objSz ≤ biSlabNobjs objSz * psSlabObjmemsz objSz := Nat.mul_le_mul_right _ holds.many
    have inside := geo.inside
    rw [Nat.mod_eq_of_lt]
    · omega
    · simp only [memMgrObjSz, u64] at inside ⊢
      omega

theorem le_of_serves (serves : Serves objSz) : objSz ≤ maxObjSz := by
  have last := (serves.inside 0 serves.room).2
  simp only [objOffset, maxObjSz, memMgrObjSz, sizeofPsSlab, sizeofPsMheader] at last ⊢
  omega

/-- The assertions let two kinds of sizes through that are not served: those for which only the header fits, and
those that wrap when a header is added or the sum is rounded. -/
theorem admitted_iff : Admitted objSz ↔
    objSz ≤ maxObjSz ∨ (maxObjSz < objSz ∧ objSz ≤ maxObjSz + sizeofPsMheader) ∨ (u64 - 88 < objSz ∧ objSz < u64) := by
  have size := psSlabObjmemsz_eq objSz
  simp only [sizeofPsMheader, u64] at size
  constructor
  · rintro ⟨width, create, alloc⟩
    simp only [maxObjSz, memMgrObjSz, sizeofPsSlab, sizeofPsMheader, u64] at *
    omega
  · intro sizes
    refine ⟨?_, ?_, ?_⟩ <;> simp only [maxObjSz, memMgrObjSz, sizeofPsSlab, sizeofPsMheader, u64] at * <;> omega

/-- **The sizes that are served**, what the assertions admit, and the runs that serve them: those whose infos have such
sizes, and in which no call empties a slab of one object that the list of full slabs begins with. -/
theorem admitted_serves_iff (objSz : Nat) :
    (Admitted objSz → (Serves objSz ↔ objSz ≤ maxObjSz)) ∧
      ((Admitted objSz → Serves objSz) ↔
        ¬ (maxObjSz < objSz ∧ objSz ≤ maxObjSz + sizeofPsMheader) ∧ ¬ (u64 - 88 < objSz ∧ objSz < u64)) ∧
      (HoldsAtLeast 1 objSz ↔ objSz ≤ maxObjSz) ∧
      ∀ L σ, Run L 1 EmptiesWell σ → ∀ si ∈ σ.infos, σ.objSz si = objSz → ServedIn L σ si := by
  have served : Serves objSz ↔ objSz ≤ maxObjSz := ⟨le_of_serves, serves_of_le⟩
  refine ⟨fun _ => served, ?_, holdsAtLeast_one_iff, fun L σ run si created _ => ?_⟩
  · rw [served, admitted_iff]
    simp only [maxObjSz, memMgrObjSz, sizeofPsSlab, sizeofPsMheader, u64]
    omega
  · obtain ⟨⟨g, kept⟩, _⟩ := run.kept (Nat.le_refl 1) fun _ _ _ well => well
    exact kept.servedIn created

end

/-- The assertions admit a size of which a slab holds no object, a size that wraps, and one whose rounded size wraps to 0. And in a run
whose infos have sizes that are served, a free count drops below zero and a live object is handed out again. -/
theorem admitted_not_served :
    (Admitted 1048448 ∧ biSlabNobjs 1048448 = 0 ∧ ¬ Serves 1048448) ∧ (Admitted (u64 - 1) ∧ ¬ Serves (u64 - 1)) ∧
      (Admitted (u64 - 24) ∧ psSlabObjmemsz (u64 - 24) = 0) ∧
      ∃ σ, Run smallLayout 1 (fun _ _ => True) σ ∧ (∀ si ∈ σ.infos, σ.objSz si ≤ maxObjSz) ∧
        ∃ si ∈ σ.infos, ∃ s p st', psSlabPick smallLayout σ.st si memMgrObjSz sizeofPsSlab = some (s, σ.st) ∧
          σ.st.mem (s + offNfree) = 0 ∧ biSlabAlloc smallLayout σ.st si 0 = some (p, st') ∧ st'.mem (s + offNfree) = u64 - 1 ∧
          ∃ o ∈ σ.live, o.addr = p := by
  have none : biSlabNobjs 1048448 = 0 := by
    rw [biSlabNobjs, psSlabMaxNobjs, show psSlabObjmemsz 1048448 = 1048512 by decide]
    decide
  obtain ⟨σ, run, sizes, below⟩ := nfree_below_zero smallLayout
  refine ⟨⟨admitted_iff.mpr (Or.inr (Or.inl ⟨by decide, by decide⟩)), none, fun serves => ?_⟩,
    ⟨admitted_iff.mpr (Or.inr (Or.inr ⟨by decide, by decide⟩)), fun serves => ?_⟩,
    ⟨admitted_iff.mpr (Or.inr (Or.inr ⟨by decide, by decide⟩)), by decide⟩,
    σ, run, fun si created => holdsAtLeast_one_iff.mp (sizes si created), below⟩
  · have room := serves.room
    omega
  · exact absurd (le_of_serves serves) (by decide)

/-- The largest size is admitted and served, also in a run with an object of it. -/
theorem admitted_serves_largest :
    Admitted maxObjSz ∧ Serves maxObjSz ∧
      ∃ σ : Sys, σ.live.length = 1 ∧ Run smallLayout 1 EmptiesWell σ ∧ σ.objSz 1 = maxObjSz ∧ ServedIn smallLayout σ 1 := by
  have admitted : Admitted maxObjSz := admitted_iff.mpr (Or.inl (Nat.le_refl _))
  obtain ⟨sizes, _, _, runs⟩ := admitted_serves_iff maxObjSz
  obtain ⟨_, _, _, _, _, _, _, run, size, _⟩ :=
    exists_first_object (L := smallLayout) (HoldsAtLeast.of_le (Nat.le_refl maxObjSz)) (Nat.le_refl 1) admitted.create EmptiesWell
  exact ⟨admitted, (sizes admitted).mpr (Nat.le_refl _), _, rfl, run, size, runs _ _ run 1 List.mem_cons_self size⟩

end BiProject.Slab
