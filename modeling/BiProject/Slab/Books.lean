import BiProject.Slab.Calls

/-!
# Many infos over one pool

Any number of infos of one node share the block pool: they are created, objects are allocated and freed,
the users write into their objects, and the blocks of the pool may hold anything. `Kept` is the invariant
of such a system. Beside the memory it has a set of books: which slabs are on which list, which objects
of a slab are free, and which blocks the pool has.
-/

namespace BiProject.Slab
set_option autoImplicit false
open BiProject.Lib.ListMem

/-- A live object: the pointer that `bi_slab_alloc` returned, and its info. -/
structure Obj where
  addr : Nat
  si : Nat
deriving DecidableEq

/-- The memory of a node, the infos created so far and the live objects. -/
structure Sys where
  st : State
  infos : List Nat
  live : List Obj

def Sys.objSz (σ : Sys) (si : Nat) : Nat := (σ.st.infos si).objSz

def Sys.nobjs (σ : Sys) (si : Nat) : Nat := biSlabNobjs (σ.objSz si)

/-- An eight-byte word with a byte inside a live object, or inside a block of the pool. -/
def Sys.Writable (L : Layout) (σ : Sys) (x : Nat) : Prop :=
  (∃ o ∈ σ.live, o.addr < x + 8 ∧ x < o.addr + σ.objSz o.si) ∨
    ∃ free, Pool L σ.st.pool free ∧ ∃ b ∈ free, L.block b < x + 8 ∧ x < L.block b + memMgrObjSz

/-- One call, or writes of the users. The slabs of an info hold at least `n` objects, only live objects
are freed, and only where `well` holds. -/
inductive Step (L : Layout) (n : Nat) (well : Sys → Obj → Prop) (σ : Sys) : Sys → Prop where
  | create {si objSz : Nat} {st' : State} (new : si ∉ σ.infos) (notNull : si ≠ 0) (holds : HoldsAtLeast n objSz)
      (run : biSlabCreate L σ.st si objSz = some st') : Step L n well σ ⟨st', si :: σ.infos, σ.live⟩
  | alloc {si tsc p : Nat} {st' : State} (created : si ∈ σ.infos) (run : biSlabAlloc L σ.st si tsc = some (p, st')) :
      Step L n well σ ⟨st', σ.infos, ⟨p, si⟩ :: σ.live⟩
  | free {o : Obj} {st' : State} (live : o ∈ σ.live) (here : well σ o) (run : biSlabFree L σ.st o.addr = some st') :
      Step L n well σ ⟨st', σ.infos, σ.live.erase o⟩
  | write {m' : Mem} (only : ∀ x, m' x ≠ σ.st.mem x → σ.Writable L x) :
      Step L n well σ ⟨{ σ.st with mem := m' }, σ.infos, σ.live⟩

/-- Runs from the moment `mem_mgr_init` has returned, with no infos; the memory may hold anything. -/
inductive Run (L : Layout) (n : Nat) (well : Sys → Obj → Prop) : Sys → Prop where
  | init (m pool : Mem) (infos : Nat → SlabInfo) : Run L n well ⟨⟨m, memMgrInit L pool, infos⟩, [], []⟩
  | step {σ σ' : Sys} (before : Run L n well σ) (next : Step L n well σ σ') : Run L n well σ'

/-! ## The books -/

/-- The slabs on the two lists of each info, the free objects of each slab, and the blocks of the pool. -/
structure Books where
  fl : Nat → List Block
  el : Nat → List Block
  avail : Block → List Nat
  free : List Block

/-- The slabs of an info. -/
def Books.held (g : Books) (si : Nat) : List Block := g.fl si ++ g.el si

/-- The books after a call on the slab `b` of the info `si`. -/
def Books.update (g : Books) (si : Nat) (b : Block) (xs ys : List Block) (F : List Nat) (free : List Block) : Books where
  fl := Function.update g.fl si xs
  el := Function.update g.el si ys
  avail := Function.update g.avail b F
  free := free

section
variable (g : Books) (si : Nat) (b : Block) (xs ys : List Block) (F : List Nat) (free : List Block)

@[simp] theorem Books.update_fl : (g.update si b xs ys F free).fl si = xs := Function.update_self _ _ _

@[simp] theorem Books.update_el : (g.update si b xs ys F free).el si = ys := Function.update_self _ _ _

@[simp] theorem Books.update_avail : (g.update si b xs ys F free).avail b = F := Function.update_self _ _ _

@[simp] theorem Books.update_held : (g.update si b xs ys F free).held si = xs ++ ys := by simp [Books.held]

@[simp] theorem Books.update_free : (g.update si b xs ys F free).free = free := rfl

theorem Books.update_avail_of_ne {a : Block} (differ : a ≠ b) : (g.update si b xs ys F free).avail a = g.avail a :=
  Function.update_of_ne differ _ _

theorem Books.update_held_of_ne {k : Nat} (differ : k ≠ si) : (g.update si b xs ys F free).held k = g.held k := by
  simp [Books.held, Books.update, Function.update_of_ne differ]

end

/-- What is true of one info. -/
structure InfoKept (L : Layout) (st : State) (g : Books) (si : Nat) : Prop where
  notNull : si ≠ 0
  home : (st.infos si).nodeid = L.nodeId
  holds : HoldsAtLeast 1 (st.infos si).objSz
  fl : SlabList L st.mem (st.infos si).fl (g.fl si)
  el : SlabList L st.mem (st.infos si).el (g.el si)
  slab : ∀ b ∈ g.held si, SlabAt L st.mem si (st.infos si).objSz b (g.avail b)
  partly : ∀ b ∈ g.fl si, g.avail b ≠ [] ∧ (g.avail b).length < biSlabNobjs (st.infos si).objSz
  full : ∀ b ∈ g.el si, g.avail b = []
  nslabs : (st.infos si).nslabs = (g.held si).length

/-- The invariant but for the live objects. -/
structure Held (L : Layout) (st : State) (infos : List Nat) (g : Books) : Prop where
  pool : Pool L st.pool g.free
  nodup : infos.Nodup
  info : ∀ si ∈ infos, InfoKept L st g si
  once : (g.free ++ infos.flatMap g.held).Perm (List.finRange memMgrObjNum)

/-- The object `j` of the slab `b` is an object of `si` that is not free. -/
def Books.Uses (L : Layout) (st : State) (g : Books) (o : Obj) (b : Block) (j : Nat) : Prop :=
  b ∈ g.held o.si ∧ j < biSlabNobjs (st.infos o.si).objSz ∧ j ∉ g.avail b ∧
    o.addr = psMheadMem (L.header (st.infos o.si).objSz b j)

/-- **The invariant.** -/
structure Kept (L : Layout) (σ : Sys) (g : Books) : Prop extends Held L σ.st σ.infos g where
  live : σ.live.Nodup
  objects : ∀ o, o ∈ σ.live ↔ o.si ∈ σ.infos ∧ ∃ b j, g.Uses L σ.st o b j

section
variable {L : Layout} {st st' : State} {infos : List Nat} {g g' : Books} {si : Nat} {b : Block}

theorem InfoKept.geometry (kept : InfoKept L st g si) : Geometry (st.infos si).objSz := kept.holds.geometry

theorem Held.distinct (held : Held L st infos g) : (g.free ++ infos.flatMap g.held).Nodup :=
  held.once.nodup_iff.mpr (List.nodup_finRange _)

/-- A slab is no block of the pool. -/
theorem Held.not_free (held : Held L st infos g) (created : si ∈ infos) (slab : b ∈ g.held si) : b ∉ g.free := by
  have apart := (List.nodup_append'.mp held.distinct).2.2
  exact fun free => apart free (List.mem_flatMap.mpr ⟨si, created, slab⟩)

theorem Held.held_nodup (held : Held L st infos g) (created : si ∈ infos) : (g.held si).Nodup :=
  (List.nodup_flatMap.mp (List.nodup_append'.mp held.distinct).2.1).1 si created

/-- A slab belongs to one info. -/
theorem Held.owner_unique (held : Held L st infos g) {si' : Nat} (created : si ∈ infos) (created' : si' ∈ infos)
    (slab : b ∈ g.held si) (slab' : b ∈ g.held si') : si = si' := by
  have here := (held.info si created).slab b slab
  have there := (held.info si' created').slab b slab'
  exact here.info.symm.trans there.info

/-- Nothing changes for an info of whose slabs no word is stored to. -/
theorem InfoKept.frame (kept : InfoKept L st g si) (info : st'.infos si = st.infos si) (fl : g'.fl si = g.fl si)
    (el : g'.el si = g.el si) (avail : ∀ b ∈ g.held si, g'.avail b = g.avail b)
    (words : ∀ b ∈ g.held si, ∀ x, Meta L (st.infos si).objSz b x → st'.mem x = st.mem x)
    (links : SameAt L.slabNodes st.mem st'.mem (g.held si)) : InfoKept L st' g' si := by
  have held : g'.held si = g.held si := by rw [Books.held, fl, el, Books.held]
  constructor
  · exact kept.notNull
  · rw [info]
    exact kept.home
  · rw [info]
    exact kept.holds
  · rw [info, fl]
    exact kept.fl.frame fun a member => links a (by simp [Books.held, member])
  · rw [info, el]
    exact kept.el.frame fun a member => links a (by simp [Books.held, member])
  · rw [info, held]
    intro b member
    rw [avail b member]
    exact (kept.slab b member).frame fun x here => words b member x here
  · rw [info, fl]
    intro b member
    rw [avail b (by simp [Books.held, member])]
    exact kept.partly b member
  · rw [el]
    intro b member
    rw [avail b (by simp [Books.held, member])]
    exact kept.full b member
  · rw [info, held]
    exact kept.nslabs

/-- Another info after a call on the slab `b` of an info with the slabs `xs`. -/
theorem InfoKept.other {xs : List Block} (kept : InfoKept L st g si) (info : st'.infos si = st.infos si)
    (fl : g'.fl si = g.fl si) (el : g'.el si = g.el si) (avail : ∀ a, a ≠ b → g'.avail a = g.avail a)
    (same : Untouched L b xs st.mem st'.mem) (apart : ∀ a ∈ g.held si, a ∉ b :: xs) : InfoKept L st' g' si := by
  have differ : ∀ a ∈ g.held si, a ≠ b := by
    rintro a member rfl
    exact apart a member (by simp)
  have outside : ∀ a ∈ g.held si, ∀ x, L.block a ≤ x → x < L.block a + memMgrObjSz →
      x < L.block b ∨ L.block b + memMgrObjSz ≤ x := by
    intro a member x low high
    have far := L.block_apart (differ a member)
    omega
  refine kept.frame info fl el (fun a member => avail a (differ a member)) (fun a member x here => ?_) fun a member => ?_
  · obtain ⟨low, high, _⟩ := here.inside kept.geometry
    exact same x (outside a member x low high) (here.noLink kept.geometry)
  · have notIn : a ∉ xs := fun inside => apart a member (by simp [inside])
    obtain ⟨next, prev⟩ := links_apart L.slabNodes notIn
    constructor
    · exact same _ (outside a member _ (by simp [Layout.slabNodes]) (by simp [Layout.slabNodes, offList, memMgrObjSz])) next
    · refine same _ (outside a member _ ?_ (by simp [Layout.slabNodes, offList, memMgrObjSz])) prev
      simp only [Layout.slabNodes]
      omega

/-- The blocks of one info among those of all. -/
theorem flatMap_held (created : si ∈ infos) (g : Books) :
    (infos.flatMap g.held).Perm (g.held si ++ (infos.erase si).flatMap g.held) :=
  List.Perm.flatMap_right _ (List.perm_cons_erase created)

/-- **A call on one info** keeps the invariant if it does so for that info and moves its slabs between its
lists and the pool. -/
theorem Held.change (held : Held L st infos g) (created : si ∈ infos) {xs ys free : List Block} {F : List Nat}
    (others : ∀ si' ∈ infos, si' ≠ si → st'.infos si' = st.infos si')
    (same : Untouched L b (g.held si) st.mem st'.mem) (mine : b ∈ g.held si ∨ b ∈ g.free)
    (pool : Pool L st'.pool free) (moved : (free ++ (xs ++ ys)).Perm (g.free ++ g.held si))
    (kept : InfoKept L st' (g.update si b xs ys F free) si) : Held L st' infos (g.update si b xs ys F free) := by
  refine ⟨pool, held.nodup, fun si' created' => ?_, ?_⟩
  · by_cases here : si' = si
    · exact here ▸ kept
    · refine (held.info si' created').other (others si' created' here) (Function.update_of_ne here _ _)
        (Function.update_of_ne here _ _) (fun a differ => g.update_avail_of_ne _ _ _ _ _ _ differ) same fun a member inside => ?_
      rcases List.mem_cons.mp inside with rfl | later
      · rcases mine with slab | free
        · exact here (held.owner_unique created' created member slab)
        · exact held.not_free created' member free
      · exact here (held.owner_unique created' created member later)
  · have rest : (infos.erase si).flatMap (g.update si b xs ys F free).held = (infos.erase si).flatMap g.held := by
      refine List.flatMap_congr fun k member => g.update_held_of_ne si b xs ys F free ?_
      exact fun same => List.Nodup.not_mem_erase held.nodup (same ▸ member)
    have split := flatMap_held created (g.update si b xs ys F free)
    rw [g.update_held, rest] at split
    have both : (free ++ ((xs ++ ys) ++ (infos.erase si).flatMap g.held)).Perm
        (g.free ++ (g.held si ++ (infos.erase si).flatMap g.held)) := by
      simpa only [List.append_assoc] using moved.append_right ((infos.erase si).flatMap g.held)
    exact (split.append_left free).trans (both.trans (((flatMap_held created g).symm.append_left _).trans held.once))

end

end BiProject.Slab
