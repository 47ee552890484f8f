import BiProject.Slab.SlabAt

/-!
# An allocation and a free

What `__ps_slab_mem_alloc` does once it has its slab, and the cases of `__ps_slab_mem_free`, on one slab
and the two lists of its info.
-/

namespace BiProject.Slab
set_option autoImplicit false
open BiProject.Lib.ListMem

/-- The words that a call on the slab `b` of an info with the slabs `xs` may store to. -/
def Untouched (L : Layout) (b : Block) (xs : List Block) (m m' : Mem) : Prop :=
  ∀ x, x < L.block b ∨ L.block b + memMgrObjSz ≤ x → NoLink L xs x → m' x = m x

section
variable {L : Layout} {st : State} {si objSz : Nat} {b : Block} {F : List Nat} {j : Nat} {xs ys zs : List Block}

theorem NoLink.mono {x : Nat} (away : NoLink L xs x) (fewer : ys ⊆ xs) : NoLink L ys x := fun a member => away a (fewer member)

/-- Words of other slabs and of the slab itself are no links. -/
theorem Meta.noLink {x : Nat} (geo : Geometry objSz) (here : Meta L objSz b x) : NoLink L xs x :=
  fun a _ => here.not_link geo a

theorem links_apart (N : Nodes Block) {a : Block} (new : a ∉ xs) :
    (∀ c ∈ xs, N.addr a ≠ N.addr c ∧ N.addr a ≠ N.addr c + 8) ∧
      ∀ c ∈ xs, N.addr a + 8 ≠ N.addr c ∧ N.addr a + 8 ≠ N.addr c + 8 := by
  refine ⟨fun c member => ⟨fun same => ?_, N.apart a c⟩, fun c member => ⟨(N.apart c a).symm, fun same => ?_⟩⟩
  · exact new (N.inj same ▸ member)
  · exact new ((N.prev_eq_prev a c).mp same ▸ member)

/-- The links of slabs on no common list. -/
theorem sameAt_of_noLink {m m' : Mem} (same : ∀ x, NoLink L xs x → m' x = m x) (apart : ∀ a ∈ ys, a ∉ xs) :
    SameAt L.slabNodes m m' ys := by
  intro a member
  obtain ⟨next, prev⟩ := links_apart L.slabNodes (apart a member)
  exact ⟨same _ next, same _ prev⟩

/-- The links in the block itself count as elsewhere. -/
theorem elsewhere_link (a : Block) : Elsewhere L b (L.slabNodes.addr a) ∧ Elsewhere L b (L.slabNodes.addr a + 8) := by
  by_cases same : a = b
  · subst same
    exact ⟨Or.inr (Or.inl rfl), Or.inr (Or.inr rfl)⟩
  · have apart := L.block_apart same
    simp only [Elsewhere, Layout.slabNodes, memMgrObjSz, offList] at *
    omega

theorem SlabList.frame_elsewhere {m m' : Mem} {head : Nat} (list : SlabList L m head xs)
    (same : ∀ x, Elsewhere L b x → m' x = m x) : SlabList L m' head xs :=
  list.frame fun a _ => ⟨same _ (elsewhere_link a).1, same _ (elsewhere_link a).2⟩

/-- The links in the block itself need no mention. -/
theorem Untouched.uncons {m m' : Mem} (same : Untouched L b (b :: xs) m m') : Untouched L b xs m m' := by
  intro x away noLink
  refine same x away fun a member => ?_
  rcases List.mem_cons.mp member with rfl | later
  · simp only [Layout.slabNodes, offList, memMgrObjSz] at away ⊢
    omega
  · exact noLink a later

theorem Untouched.trans {m m' m'' : Mem} (first : ∀ x, x < L.block b ∨ L.block b + memMgrObjSz ≤ x → m' x = m x)
    (second : Untouched L b xs m' m'') : Untouched L b xs m m'' :=
  fun x away noLink => (second x away noLink).trans (first x away)

theorem Untouched.mono {m m' : Mem} (same : Untouched L b xs m m') (more : xs ⊆ ys) : Untouched L b ys m m' :=
  fun x away noLink => same x away (noLink.mono more)

/-! ## Taking an object -/

/-- What becomes of the lists when the slab keeps the free objects `F`. -/
def Taken (F : List Nat) (b : Block) (xs ys xs' ys' : List Block) : Prop :=
  if F = [] then xs' = xs ∧ ∃ rest, ys' = b :: rest ∧ rest.Perm ys else xs' = b :: xs ∧ ys' = ys

theorem Taken.perm {xs' ys' : List Block} (taken : Taken F b xs ys xs' ys') : (xs' ++ ys').Perm (b :: xs ++ ys) := by
  unfold Taken at taken
  split_ifs at taken with last
  · obtain ⟨rfl, rest, rfl, perm⟩ := taken
    exact ((perm.cons b).append_left xs').trans List.perm_middle
  · obtain ⟨rfl, rfl⟩ := taken
    exact .refl _

/-- Where the slabs are after an object has been taken from `b`. -/
theorem Taken.mem {xs' ys' : List Block} (taken : Taken F b xs ys xs' ys') (notFl : b ∉ xs) (notEl : b ∉ ys) :
    (∀ a ∈ xs', a ≠ b → a ∈ xs) ∧ (∀ a ∈ ys', a ≠ b → a ∈ ys) ∧ (b ∈ xs' → F ≠ []) ∧ (b ∈ ys' → F = []) := by
  unfold Taken at taken
  split_ifs at taken with last
  · obtain ⟨rfl, rest, rfl, perm⟩ := taken
    refine ⟨fun a member _ => member, fun a member differ => ?_, fun member => absurd member notFl, fun _ => last⟩
    exact perm.subset ((List.mem_cons.mp member).resolve_left differ)
  · obtain ⟨rfl, rfl⟩ := taken
    exact ⟨fun a member differ => (List.mem_cons.mp member).resolve_left differ, fun a member _ => member,
      fun _ => last, fun member => absurd member notEl⟩

/-- `__ps_slab_mem_alloc` once its assertion has passed. -/
theorem psSlabMemAlloc_passed {s allocsz headoff tsc : Nat} {st₁ : State} (fits : ((st.infos si).objSz + headoff) % u64 ≤ allocsz)
    (pick : psSlabPick L st si allocsz headoff = some (s, st₁)) :
    psSlabMemAlloc L st si allocsz headoff tsc = psSlabTake st₁ si s tsc := by
  simp [psSlabMemAlloc, guard, fits, pick]

/-- **Taking an object** from the first slab of the freelist; a slab without further ones moves to the
other list. -/
theorem psSlabTake_spec (geo : Geometry objSz) (slab : SlabAt L st.mem si objSz b (j :: F))
    (fl : SlabList L st.mem (st.infos si).fl (b :: xs)) (el : SlabList L st.mem (st.infos si).el ys)
    (apart : ∀ a ∈ ys, a ∉ b :: xs) (tsc : Nat) :
    ∃ m' f e xs' ys', psSlabTake st si (L.block b) tsc = some (psMheadMem (L.header objSz b j),
        { st with mem := m' }.setInfo si { st.infos si with fl := f, el := e }) ∧
      Taken F b xs ys xs' ys' ∧ SlabList L m' f xs' ∧ SlabList L m' e ys' ∧ SlabAt L m' si objSz b F ∧
      m' (L.block b + offFreelist) = st.mem (L.header objSz b j + offNext) ∧ Untouched L b (b :: xs ++ ys) st.mem m' := by
  obtain ⟨first, slab', rest, same⟩ := slab.take geo tsc
  have pos : L.header objSz b j ≠ 0 := by
    have low := (geo.header_inside L b (slab.bound j (by simp))).1
    simp only [sizeofPsSlab] at low
    omega
  have count : store st.mem (L.block b + offFreelist) (st.mem (L.header objSz b j + offNext)) (L.block b + offNfree) =
      (j :: F).length := by
    rw [store_other (by simp [offFreelist, offNfree]), slab.nfree]
  have left := slab'.nfree
  generalize stored : psMheadReset (store (store st.mem (L.block b + offFreelist) (st.mem (L.header objSz b j + offNext)))
    (L.block b + offNfree) (decr (j :: F).length)) (L.header objSz b j) tsc = m₁ at slab' rest same left
  have freelist : Meta L objSz b (L.block b + offFreelist) := Or.inl ⟨offFreelist, by simp, rfl⟩
  have outside : ∀ x, x < L.block b ∨ L.block b + memMgrObjSz ≤ x → m₁ x = st.mem x := fun x away => same x (Or.inl away)
  have fl₁ := fl.frame_elsewhere same
  have el₁ := el.frame_elsewhere same
  by_cases last : F = []
  · subst last
    obtain ⟨f, m₂, removed, fl₂, alone, same₂⟩ := SlabList.rem [] fl₁
    rw [List.nil_append] at fl₂ same₂
    have new : b ∉ ys := fun member => apart b member (by simp)
    have el₂ := el₁.frame (sameAt_of_noLink same₂ apart)
    obtain ⟨m₃, ys', added, perm, el₃, same₃⟩ := el₂.add alone new
    have fl₃ : SlabList L m₃ f xs := by
      refine fl₂.frame (sameAt_of_noLink same₃ fun a member inside => ?_)
      rcases List.mem_cons.mp inside with rfl | later
      · exact (List.nodup_cons.mp fl.ring.nodup).1 member
      · exact apart a later (List.mem_cons_of_mem b member)
    refine ⟨m₃, f, L.block b, xs, b :: ys', ?_, ?_, fl₃, el₃, ?_, ?_, fun x away noLink => ?_⟩
    · simp only [psSlabTake, first, pos, L.block_pos, guard, ne_eq, not_false_iff, and_self, if_true, count, stored, left,
        List.length_nil, removed, (psListSingleton_iff alone).mpr rfl, added, Option.pure_def, Option.bind_eq_bind,
        Option.bind_some]
    · rw [Taken, if_pos rfl]
      exact ⟨rfl, ys', rfl, perm⟩
    · refine slab'.frame fun x here => ?_
      rw [same₃ x (here.noLink geo), same₂ x (here.noLink geo)]
    · rw [same₃ _ (freelist.noLink geo), same₂ _ (freelist.noLink geo), rest]
    · rw [same₃ x (noLink.mono (by simp)), same₂ x (noLink.mono (by simp)), outside x away]
  · refine ⟨m₁, (st.infos si).fl, (st.infos si).el, b :: xs, ys, ?_, ?_, fl₁, el₁, slab', rest, fun x away _ => outside x away⟩
    · have some_left : F.length ≠ 0 := fun none => last (List.length_eq_zero_iff.mp none)
      simp only [psSlabTake, first, pos, L.block_pos, guard, ne_eq, not_false_iff, and_self, if_true, count, stored, left,
        some_left, if_false, State.setInfo, Function.update_eq_self, Option.pure_def, Option.bind_eq_bind, Option.bind_some]
    · rw [Taken, if_neg last]
      exact ⟨rfl, rfl⟩

/-! ## Giving an object back -/

/-- `__ps_slab_mem_free` once its assertions have passed, with the object's slab, its info and the number of
its free objects known. -/
theorem psSlabMemFree_passed {s h n k allocsz headoff : Nat} {m : Mem} (owner : st.mem (h + offSlab) = s) (slab : s ≠ 0)
    (mine : st.mem (s + offSi) = si) (notNull : si ≠ 0)
    (fits : (psSlabObjmemsz objSz + headoff) % u64 ≤ allocsz) (home : (st.infos si).nodeid = L.nodeId)
    (size : (st.infos si).objSz = objSz) (divisor : psSlabObjmemsz objSz ≠ 0) (few : psSlabMaxNobjs objSz allocsz headoff % 2 ^ 32 = n)
    (count : store (store st.mem (s + offFreelist) h) (h + offNext) (st.mem (s + offFreelist)) (s + offNfree) = k)
    (given : store (store (store st.mem (s + offFreelist) h) (h + offNext) (st.mem (s + offFreelist))) (s + offNfree) (incr k) = m) :
    psSlabMemFree L st (psMheadMem h) allocsz headoff =
      if m (s + offNfree) = n then do
        let (fl, m) ← slabFreelistRem m (st.infos si).fl s
        return psSlabDeffree L ({ st with mem := m }.setInfo si
          { st.infos si with fl := fl, nslabs := decr (st.infos si).nslabs }) s
      else if m (s + offNfree) = 1 then do
        let (el, m) ← slabFreelistRem m (st.infos si).el s
        guard (psListSingleton m s)
        guard (m (s + offMemory) ≠ 0 ∧ m (s + offFreelist) ≠ 0)
        let (fl, m) ← slabFreelistAdd m (st.infos si).fl s
        return { st with mem := m }.setInfo si { st.infos si with fl := fl, el := el }
      else some { st with mem := m } := by
  subst few count given size
  subst owner mine
  simp only [psSlabMemFree, psMheadGet, psMheadMem, Nat.add_sub_cancel, slab, notNull, home, fits, divisor, guard, ne_eq, not_false_iff,
    if_true, Option.pure_def, Option.bind_eq_bind, Option.bind_some]

/-- The part of `__ps_slab_mem_free` that every call goes through: with the object on its slab's chain, what
follows depends on the number of free objects only. -/
theorem psSlabMemFree_eq (geo : Geometry objSz) (slab : SlabAt L st.mem si objSz b F) (bound : j < biSlabNobjs objSz)
    (used : j ∉ F) (notNull : si ≠ 0) (size : (st.infos si).objSz = objSz) (home : (st.infos si).nodeid = L.nodeId) :
    ∃ m₁, SlabAt L m₁ si objSz b (j :: F) ∧ (∀ x, Elsewhere L b x → m₁ x = st.mem x) ∧
      psSlabMemFree L st (psMheadMem (L.header objSz b j)) memMgrObjSz sizeofPsSlab =
        if (j :: F).length = biSlabNobjs objSz then do
          let (fl, m) ← slabFreelistRem m₁ (st.infos si).fl (L.block b)
          return psSlabDeffree L ({ st with mem := m }.setInfo si
            { st.infos si with fl := fl, nslabs := decr (st.infos si).nslabs }) (L.block b)
        else if (j :: F).length = 1 then do
          let (el, m) ← slabFreelistRem m₁ (st.infos si).el (L.block b)
          guard (psListSingleton m (L.block b))
          guard (m (L.block b + offMemory) ≠ 0 ∧ m (L.block b + offFreelist) ≠ 0)
          let (fl, m) ← slabFreelistAdd m (st.infos si).fl (L.block b)
          return { st with mem := m }.setInfo si { st.infos si with fl := fl, el := el }
        else some { st with mem := m₁ } := by
  obtain ⟨slab', same⟩ := slab.give geo bound used
  have low := (geo.header_inside L b bound).1
  simp only [sizeofPsSlab] at low
  have small := slab.small geo
  have few : psSlabMaxNobjs objSz memMgrObjSz sizeofPsSlab % 2 ^ 32 = biSlabNobjs objSz := by
    rw [← biSlabNobjs]
    exact Nat.mod_eq_of_lt (Nat.lt_trans geo.few (by decide))
  have fits : (psSlabObjmemsz objSz + sizeofPsSlab) % u64 ≤ memMgrObjSz := by
    have inside := geo.inside
    have one : psSlabObjmemsz objSz ≤ biSlabNobjs objSz * psSlabObjmemsz objSz := Nat.le_mul_of_pos_left _ (by omega)
    exact Nat.le_trans (Nat.mod_le _ _) (by omega)
  have count : store (store st.mem (L.block b + offFreelist) (L.header objSz b j)) (L.header objSz b j + offNext)
      (st.mem (L.block b + offFreelist)) (L.block b + offNfree) = F.length := by
    rw [store_other (by simp only [offNfree, offNext]; omega), store_other (by simp [offNfree, offFreelist]), slab.nfree]
  generalize given : store (store (store st.mem (L.block b + offFreelist) (L.header objSz b j)) (L.header objSz b j + offNext)
    (st.mem (L.block b + offFreelist))) (L.block b + offNfree) (incr F.length) = m₁ at slab' same
  have divisor : psSlabObjmemsz objSz ≠ 0 := by
    have line := geo.line
    omega
  have run := psSlabMemFree_passed (L := L) (slab.owner j bound) (L.block_pos b) slab.info notNull fits home size
    divisor few count given
  rw [slab'.nfree] at run
  exact ⟨m₁, slab', same, run⟩

/-- **A free that leaves the slab where it is.** -/
theorem psSlabMemFree_keep (geo : Geometry objSz) (slab : SlabAt L st.mem si objSz b F) (bound : j < biSlabNobjs objSz)
    (used : j ∉ F) (notNull : si ≠ 0) (size : (st.infos si).objSz = objSz) (home : (st.infos si).nodeid = L.nodeId)
    (others : F ≠ []) (still : (j :: F).length ≠ biSlabNobjs objSz) :
    ∃ m', psSlabMemFree L st (psMheadMem (L.header objSz b j)) memMgrObjSz sizeofPsSlab = some { st with mem := m' } ∧
      SlabAt L m' si objSz b (j :: F) ∧ ∀ x, Elsewhere L b x → m' x = st.mem x := by
  obtain ⟨m₁, slab', same, run⟩ := psSlabMemFree_eq geo slab bound used notNull size home
  rw [if_neg still, if_neg (by simpa using others)] at run
  exact ⟨m₁, run, slab', same⟩

/-- **The first free of a full slab** brings it back to the freelist. -/
theorem psSlabMemFree_refill (geo : Geometry objSz) (slab : SlabAt L st.mem si objSz b []) (bound : j < biSlabNobjs objSz)
    (notNull : si ≠ 0) (size : (st.infos si).objSz = objSz) (home : (st.infos si).nodeid = L.nodeId)
    (several : biSlabNobjs objSz ≠ 1) (fl : SlabList L st.mem (st.infos si).fl xs)
    (el : SlabList L st.mem (st.infos si).el (ys ++ b :: zs)) (apart : ∀ a ∈ xs, a ∉ ys ++ b :: zs) :
    ∃ m' f e xs', psSlabMemFree L st (psMheadMem (L.header objSz b j)) memMgrObjSz sizeofPsSlab =
        some ({ st with mem := m' }.setInfo si { st.infos si with fl := f, el := e }) ∧
      xs'.Perm xs ∧ SlabList L m' f (b :: xs') ∧ SlabList L m' e (ys ++ zs) ∧ SlabAt L m' si objSz b [j] ∧
      Untouched L b (xs ++ (ys ++ b :: zs)) st.mem m' := by
  obtain ⟨m₁, slab₁, same₁, run⟩ := psSlabMemFree_eq geo slab bound (by simp) notNull size home
  rw [if_neg (by simpa using several.symm), if_pos List.length_singleton] at run
  obtain ⟨e, m₂, removed, el₂, alone, same₂⟩ := (el.frame_elsewhere same₁).rem
  have fl₂ := (fl.frame_elsewhere same₁).frame (sameAt_of_noLink same₂ apart)
  have new : b ∉ xs := fun member => apart b member (by simp)
  obtain ⟨m₃, xs', added, perm, fl₃, same₃⟩ := fl₂.add alone new
  have el₃ : SlabList L m₃ e (ys ++ zs) := by
    refine el₂.frame (sameAt_of_noLink same₃ fun a member inside => ?_)
    rcases List.mem_cons.mp inside with rfl | later
    · have nodup := el.ring.nodup
      rw [List.nodup_middle, List.nodup_cons] at nodup
      exact nodup.1 member
    · refine apart a later ?_
      simp only [List.mem_append, List.mem_cons] at member ⊢
      tauto
  have slab₂ : SlabAt L m₂ si objSz b [j] := slab₁.frame fun x here => same₂ x (here.noLink geo)
  have header : m₂ (L.block b + offFreelist) ≠ 0 := by
    rw [slab₂.chain.1]
    have low := (geo.header_inside L b bound).1
    simp only [sizeofPsSlab] at low
    omega
  refine ⟨m₃, L.block b, e, xs', ?_, perm, fl₃, el₃, ?_, fun x away noLink => ?_⟩
  · rw [run]
    simp only [removed, (psListSingleton_iff alone).mpr rfl, slab₂.memory, L.block_pos, header, added, guard, ne_eq, not_false_iff,
      and_self, if_true, Option.pure_def, Option.bind_eq_bind, Option.bind_some]
  · exact slab₂.frame fun x here => same₃ x (here.noLink geo)
  · rw [same₃ x (noLink.mono (by simp)), same₂ x (noLink.mono (by simp)), same₁ x (Or.inl away)]

/-- **The last free of a slab** that is on the freelist gives its block back. -/
theorem psSlabMemFree_return (geo : Geometry objSz) (slab : SlabAt L st.mem si objSz b F) (bound : j < biSlabNobjs objSz)
    (used : j ∉ F) (notNull : si ≠ 0) (size : (st.infos si).objSz = objSz) (home : (st.infos si).nodeid = L.nodeId)
    (last : (j :: F).length = biSlabNobjs objSz) (fl : SlabList L st.mem (st.infos si).fl (ys ++ b :: zs)) :
    ∃ m' f, psSlabMemFree L st (psMheadMem (L.header objSz b j)) memMgrObjSz sizeofPsSlab =
        some ({ st with mem := m', pool := memMgrFree L st.pool (L.item b) }.setInfo si
          { st.infos si with fl := f, nslabs := decr (st.infos si).nslabs }) ∧
      SlabList L m' f (ys ++ zs) ∧ Untouched L b (ys ++ b :: zs) st.mem m' := by
  obtain ⟨m₁, slab₁, same₁, run⟩ := psSlabMemFree_eq geo slab bound used notNull size home
  rw [if_pos last] at run
  obtain ⟨f, m₂, removed, fl₂, _, same₂⟩ := (fl.frame_elsewhere same₁).rem
  have slab₂ : SlabAt L m₂ si objSz b (j :: F) := slab₁.frame fun x here => same₂ x (here.noLink geo)
  refine ⟨m₂, f, ?_, fl₂, fun x away noLink => ?_⟩
  · rw [run]
    simp only [removed, Option.pure_def, Option.bind_eq_bind, Option.bind_some, psSlabDeffree, State.setInfo, slab₂.item]
  · rw [same₂ x noLink, same₁ x (Or.inl away)]

/-- **The free of the only object of a slab** looks for the slab on the freelist, while it is on the other
list. It leaves the ring of that list, whose head stays as it was. -/
theorem psSlabMemFree_only (geo : Geometry objSz) (slab : SlabAt L st.mem si objSz b []) (bound : j < biSlabNobjs objSz)
    (notNull : si ≠ 0) (size : (st.infos si).objSz = objSz) (home : (st.infos si).nodeid = L.nodeId)
    (one : biSlabNobjs objSz = 1) (fl : SlabList L st.mem (st.infos si).fl xs)
    (el : SlabList L st.mem (st.infos si).el (ys ++ b :: zs)) (apart : ∀ a ∈ xs, a ∉ ys ++ b :: zs) :
    ∃ m', psSlabMemFree L st (psMheadMem (L.header objSz b j)) memMgrObjSz sizeofPsSlab =
        some ({ st with mem := m', pool := memMgrFree L st.pool (L.item b) }.setInfo si
          { st.infos si with nslabs := decr (st.infos si).nslabs }) ∧
      SlabList L m' (st.infos si).fl xs ∧ Ring L.slabNodes m' (ys ++ zs) ∧
      Untouched L b (ys ++ b :: zs) st.mem m' := by
  obtain ⟨m₁, slab₁, same₁, run⟩ := psSlabMemFree_eq geo slab bound (by simp) notNull size home
  rw [if_pos (by simpa using one.symm)] at run
  have el₁ := el.frame_elsewhere same₁
  obtain ⟨ring, _, same₂⟩ := el₁.ring.unlink_mid ys
  have fl₂ := (fl.frame_elsewhere same₁).frame (sameAt_of_noLink same₂ apart)
  have slab₂ : SlabAt L (unlink m₁ (L.slabNodes.addr b)) si objSz b [j] := slab₁.frame fun x here => same₂ x (here.noLink geo)
  have differ : (st.infos si).fl ≠ L.block b := by
    rw [fl.head]
    cases xs with
    | nil =>
      rw [L.first_nil]
      exact (L.block_pos b).symm
    | cons a rest =>
      rw [L.first_cons]
      intro same
      exact apart a (by simp) (by simp [L.block_inj same])
  have removed : slabFreelistRem m₁ (st.infos si).fl (L.block b) =
      some ((st.infos si).fl, unlink m₁ (L.slabNodes.addr b)) := by
    simp [slabFreelistRem, L.block_pos, differ, psListLlRem, Layout.slabNodes]
  refine ⟨_, ?_, fl₂, ring, fun x away noLink => ?_⟩
  · rw [run]
    simp only [removed, Option.pure_def, Option.bind_eq_bind, Option.bind_some, psSlabDeffree, State.setInfo, slab₂.item]
  · rw [same₂ x noLink, same₁ x (Or.inl away)]

end

end BiProject.Slab
