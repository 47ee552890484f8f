import BiProject.Lib.SearchTree
import BiProject.RbTree.Cbtree

/-!
# Trees in memory

A search tree whose elements carry the address of the node that holds them, what it means that
memory holds such a tree, and the specification of the functions of `cbtree.c` that only build:
`mkNode`, the four rotations, `mkBalanced` when it does not update in place, and `deleteMin`. Each
is described by the events it emits: stores go to cells obtained on the way, the result is a tree
in memory that refines the functional operation, and the nodes it was given together with those it
obtained are the nodes of the result together with those it freed.
-/

namespace BiProject.RbTree
set_option autoImplicit false
open BiProject.Lib.SearchTree BinaryTree

/-- A tree of pairs stored at known addresses. -/
abbrev Tree := BinaryTree (Addr × Kv)

/-- The pointer to a tree. -/
def ptr : Tree → Option Addr
  | nil => none
  | node p _ _ => some p.1

/-- The cells of a tree, in the order of its keys. -/
def addrs (t : Tree) : List Addr := (inorder t).map Prod.fst

/-- What a tree binds, in order. -/
def kvs (t : Tree) : List Kv := (inorder t).map Prod.snd

/-- The tree without its addresses. -/
def erase (t : Tree) : BinaryTree Kv := t.map Prod.snd

@[simp] theorem ptr_nil : ptr nil = none := rfl
@[simp] theorem ptr_node (p : Addr × Kv) (l r : Tree) : ptr (node p l r) = some p.1 := rfl
@[simp] theorem addrs_nil : addrs nil = [] := rfl
@[simp] theorem addrs_node (p : Addr × Kv) (l r : Tree) : addrs (node p l r) = addrs l ++ p.1 :: addrs r := by
  simp [addrs]
@[simp] theorem kvs_node (p : Addr × Kv) (l r : Tree) : kvs (node p l r) = kvs l ++ p.2 :: kvs r := by
  simp [kvs]
@[simp] theorem erase_nil : erase nil = nil := rfl
@[simp] theorem erase_node (p : Addr × Kv) (l r : Tree) : erase (node p l r) = node p.2 (erase l) (erase r) := rfl
@[simp] theorem numNodes_erase (t : Tree) : (erase t).numNodes = t.numNodes := numNodes_map _ t

/-- A tree binds what its shape binds. -/
theorem kvs_eq_inorder (t : Tree) : kvs t = inorder (erase t) := (inorder_map _ t).symm

@[simp] theorem addrs_length (t : Tree) : (addrs t).length = t.numNodes := by simp [addrs]

/-- Memory holds the tree: every node has the pointers, the size and the pair it should have. -/
def Holds (h : Heap) : Tree → Prop
  | nil => True
  | node p l r => h p.1 = ⟨ptr l, ptr r, l.numNodes + r.numNodes + 1, p.2⟩ ∧ Holds h l ∧ Holds h r

/-- Memory holds a tree as long as the cells of it do not change. -/
theorem Holds.frame {h h' : Heap} {t : Tree} (holds : Holds h t) (same : ∀ a ∈ addrs t, h' a = h a) : Holds h' t := by
  induction t with
  | nil => trivial
  | node p l r ihl ihr =>
    obtain ⟨here, left, right⟩ := holds
    simp only [addrs_node, List.mem_append, List.mem_cons] at same
    refine ⟨(same p.1 (Or.inr (Or.inl rfl))).trans here, ihl left fun a member => same a (Or.inl member), ?_⟩
    exact ihr right fun a member => same a (Or.inr (Or.inr member))

/-- Trees of fewer nodes than this have no overflow in their `int` arithmetic. -/
def sizeLimit : Nat := 2 ^ 29 + 1

/-- In range, `int` changes nothing, -/
theorem int_eq {x : Int} (lower : -2 ^ 31 ≤ x) (upper : x < 2 ^ 31) : int x = x := by
  rw [int, Int.bmod_def]
  split <;> omega

/-- and neither does `unsigned`. -/
theorem unsigned_eq {n : Nat} (small : n < 2 ^ 32) : unsigned n = n := by
  rw [unsigned]
  omega

/-- The `size` field of a tree that is not too large is its number of nodes. -/
theorem heapSize_ptr {h : Heap} {t : Tree} (holds : Holds h t) (small : t.numNodes < sizeLimit) :
    heapSize h (ptr t) = t.numNodes := by
  cases t with
  | nil => rfl
  | node p l r =>
    simp only [sizeLimit, numNodes] at small
    simp only [ptr_node, heapSize, holds.1, numNodes]
    exact int_eq (by omega) (by omega)

/-! ## Events -/

/-- The node whose field an event stores to. -/
def Event.target : Event → Option Addr
  | .link _ a _ | .size a _ | .kv a _ => some a
  | .alloc _ | .free _ | .root _ => none

/-- An event leaves the cells it does not store to alone, -/
theorem Event.apply_of_ne {e : Event} {a : Addr} (h : Heap) (other : e.target ≠ some a) : e.apply h a = h a := by
  cases e with
  | link d b p => exact if_neg fun same => other (congrArg some same.symm)
  | size b n => exact if_neg fun same => other (congrArg some same.symm)
  | kv b x => exact if_neg fun same => other (congrArg some same.symm)
  | alloc | free | root => rfl

/-- and so do any number of events. -/
theorem applyAll_of_ne {es : List Event} {a : Addr} (h : Heap) (other : ∀ e ∈ es, e.target ≠ some a) :
    applyAll h es a = h a := by
  induction es generalizing h with
  | nil => rfl
  | cons e es ih =>
    have rest := ih (e.apply h) fun x member => other x (List.mem_cons_of_mem _ member)
    exact rest.trans (Event.apply_of_ne h (other e List.mem_cons_self))

@[simp] theorem applyAll_append (h : Heap) (es es' : List Event) :
    applyAll h (es ++ es') = applyAll (applyAll h es) es' := List.foldl_append

@[simp] theorem allocs_append (es es' : List Event) : allocs (es ++ es') = allocs es ++ allocs es' :=
  List.filterMap_append

@[simp] theorem frees_append (es es' : List Event) : frees (es ++ es') = frees es ++ frees es' :=
  List.filterMap_append

@[simp] theorem St.emit_heap (s : St) (es : List Event) : (s.emit es).heap = applyAll s.heap es := rfl

@[simp] theorem St.emit_used (s : St) (es : List Event) : (s.emit es).used = s.used + (allocs es).length := rfl

/-- Events are emitted one after another. -/
theorem St.emit_emit (s : St) (es es' : List Event) : (s.emit es).emit es' = s.emit (es ++ es') := by
  simp [St.emit, Nat.add_assoc]

theorem St.emit_nil (s : St) : s.emit [] = s := by
  simp [St.emit, applyAll, allocs]

/-- A step that succeeds hands its result and its state to the next one. -/
theorem bind_run {β γ : Type} {x : TreeM β} {f : β → TreeM γ} {s s' : St} {b : β} (run : x s = some (b, s')) :
    (x >>= f) s = f b s' := by
  change (x s).bind (fun p => f p.1 p.2) = _
  rw [run]
  rfl

/-! ## `mkNode` -/

/-- What `mkNode` emits for a node at `c`. -/
def nodeEvents (c : Addr) (l r : Option Addr) (size : Nat) (kv : Kv) : List Event :=
  [.alloc c, .link .left c l, .link .right c r, .size c size, .kv c kv]

/-- The sizes are not changed when a link is. -/
theorem heapSize_link (h : Heap) (d : Side) (a : Addr) (p q : Option Addr) :
    heapSize ((Event.link d a p).apply h) q = heapSize h q := by
  cases q with
  | none => rfl
  | some b =>
    simp only [heapSize, Event.apply, modify]
    split
    · cases d <;> rfl
    · rfl

/-- What `mkNode` does: it takes the next cell and fills it. -/
theorem mkNode_run (cells : Nat → Addr) (l r : Option Addr) (kv : Kv) (s : St) :
    mkNode cells l r kv s = some (cells s.used, s.emit (nodeEvents (cells s.used) l r
      (unsigned (int (int (1 + heapSize s.heap l) + heapSize s.heap r))) kv)) := by
  simp only [mkNode]
  rw [bind_run (rfl : treeBBNewNode cells s = _), bind_run rfl, bind_run rfl, bind_run rfl, bind_run rfl, bind_run rfl,
    bind_run rfl]
  have sizes : ∀ q, heapSize (((s.emit [.alloc (cells s.used)]).emit [.link .left (cells s.used) l]).emit
      [.link .right (cells s.used) r]).heap q = heapSize s.heap q := by
    intro q
    exact (heapSize_link _ _ _ _ _).trans (heapSize_link _ _ _ _ _)
  rw [sizes, sizes]
  simp only [St.emit_emit]
  rfl

/-- After that the cell is the node, -/
theorem applyAll_nodeEvents (h : Heap) (c : Addr) (l r : Option Addr) (size : Nat) (kv : Kv) :
    applyAll h (nodeEvents c l r size kv) c = ⟨l, r, size, kv⟩ := by
  simp [applyAll, nodeEvents, Event.apply, modify, Node.setChild]

/-- and no other was stored to. -/
theorem nodeEvents_target {c : Addr} {l r : Option Addr} {size : Nat} {kv : Kv} :
    ∀ e ∈ nodeEvents c l r size kv, e.target = none ∨ e.target = some c := by
  simp [nodeEvents, Event.target]

/-! ## Building -/

/-- What has been built from the nodes `old` since state `s` by the events `es`: the trees in hand, and
the old nodes that are in none of them and are still to be freed. -/
structure Building (cells : Nat → Addr) (s : St) (old : List Addr) (es : List Event) (trees : List Tree)
    (loose : List Addr) : Prop where
  distinct : Function.Injective cells
  fresh : ∀ a ∈ old, ∀ i, s.used ≤ i → cells i ≠ a
  supply : allocs es = (List.range (allocs es).length).map fun i => cells (s.used + i)
  stores : ∀ e ∈ es, ∀ a, e.target = some a → a ∈ allocs es
  noRoot : ∀ p, Event.root p ∉ es
  holds : ∀ t ∈ trees, Holds (applyAll s.heap es) t
  nodes : (old ++ allocs es).Perm (trees.flatMap addrs ++ loose ++ frees es)

section Building
variable {cells : Nat → Addr} {s : St} {old : List Addr} {es : List Event} {trees : List Tree} {loose : List Addr}

/-- An operation starts with the trees that it may use. -/
theorem Building.start (distinct : Function.Injective cells) (holds : ∀ t ∈ trees, Holds s.heap t)
    (all : old.Perm (trees.flatMap addrs ++ loose)) (fresh : ∀ a ∈ old, ∀ i, s.used ≤ i → cells i ≠ a) :
    Building cells s old [] trees loose where
  distinct := distinct
  fresh := fresh
  supply := rfl
  stores := fun e member => absurd member List.not_mem_nil
  noRoot := fun p => List.not_mem_nil
  holds := holds
  nodes := by simpa [allocs, frees] using all

/-- Neither the order of the trees nor that of the loose cells matters. -/
theorem Building.perm {trees' : List Tree} {loose' : List Addr} (b : Building cells s old es trees loose)
    (sameTrees : trees.Perm trees') (sameLoose : loose.Perm loose') : Building cells s old es trees' loose' where
  distinct := b.distinct
  fresh := b.fresh
  supply := b.supply
  stores := b.stores
  noRoot := b.noRoot
  holds := fun t member => b.holds t (sameTrees.mem_iff.mpr member)
  nodes := b.nodes.trans (((sameTrees.flatMap_right addrs).append sameLoose).append_right _)

/-- Every node in hand was there at the start or was obtained since. -/
theorem Building.mem {a : Addr} (b : Building cells s old es trees loose)
    (member : a ∈ trees.flatMap addrs ++ loose ++ frees es) : a ∈ old ∨ a ∈ allocs es :=
  List.mem_append.mp (b.nodes.mem_iff.mpr member)

/-- What has been allocated are the next cells. -/
theorem Building.mem_allocs {a : Addr} (b : Building cells s old es trees loose) (member : a ∈ allocs es) :
    ∃ i < (allocs es).length, cells (s.used + i) = a := by
  rw [b.supply] at member
  obtain ⟨i, bound, here⟩ := List.mem_map.mp member
  exact ⟨i, List.mem_range.mp bound, here⟩

/-- The next cell is none of the nodes in hand. -/
theorem Building.next_fresh {a : Addr} (b : Building cells s old es trees loose) (member : a ∈ old ∨ a ∈ allocs es) :
    cells (s.emit es).used ≠ a := by
  rcases member with old | new
  · exact b.fresh a old _ (Nat.le_add_right _ _)
  · obtain ⟨i, bound, rfl⟩ := b.mem_allocs new
    intro same
    have index := b.distinct same
    simp only [St.emit_used] at index
    omega

/-- A tree in hand is taken apart: its root becomes loose. -/
theorem Building.split {p : Addr × Kv} {l r : Tree} (b : Building cells s old es (node p l r :: trees) loose) :
    Building cells s old es (l :: r :: trees) (p.1 :: loose) where
  distinct := b.distinct
  fresh := b.fresh
  supply := b.supply
  stores := b.stores
  noRoot := b.noRoot
  holds := fun t member => by
    have whole := b.holds _ List.mem_cons_self
    rcases List.mem_cons.mp member with rfl | member
    · exact whole.2.1
    · rcases List.mem_cons.mp member with rfl | member
      · exact whole.2.2
      · exact b.holds t (List.mem_cons_of_mem _ member)
  nodes := by
    refine b.nodes.trans (List.Perm.append_right _ ?_)
    simp only [List.flatMap_cons, addrs_node]
    grind

/-- An empty tree need not be kept in mind. -/
theorem Building.dropNil (b : Building cells s old es (nil :: trees) loose) : Building cells s old es trees loose where
  distinct := b.distinct
  fresh := b.fresh
  supply := b.supply
  stores := b.stores
  noRoot := b.noRoot
  holds := fun t member => b.holds t (List.mem_cons_of_mem _ member)
  nodes := by simpa using b.nodes

/-- Freeing a loose node. -/
theorem Building.free {a : Addr} (b : Building cells s old es trees (a :: loose)) :
    Building cells s old (es ++ [.free a]) trees loose where
  distinct := b.distinct
  fresh := b.fresh
  supply := by simpa [allocs] using b.supply
  stores := fun e member a store => by
    rcases List.mem_append.mp member with old | new
    · simpa [allocs] using b.stores e old a store
    · rw [List.mem_singleton.mp new] at store
      cases store
  noRoot := fun p member => by
    rcases List.mem_append.mp member with old | new
    · exact b.noRoot p old
    · cases List.mem_singleton.mp new
  holds := fun t member => by simpa [applyAll, Event.apply] using b.holds t member
  nodes := by
    have before := b.nodes
    have obtained : allocs [Event.free a] = [] := rfl
    have freed : frees [Event.free a] = [a] := rfl
    rw [allocs_append, frees_append, obtained, freed, List.append_nil]
    refine before.trans ?_
    grind

/-- What is built after a node was freed, seen from before. -/
theorem Building.after_free {a : Addr} (b : Building cells (s.emit [.free a]) old es trees loose)
    (fresh : ∀ i, s.used ≤ i → cells i ≠ a) : Building cells s (a :: old) (.free a :: es) trees loose where
  distinct := b.distinct
  fresh := fun x member => by
    rcases List.mem_cons.mp member with rfl | inside
    · exact fresh
    · exact b.fresh x inside
  supply := b.supply
  stores := fun e member x target => by
    rcases List.mem_cons.mp member with rfl | inside
    · cases target
    · exact b.stores e inside x target
  noRoot := fun p member => by
    rcases List.mem_cons.mp member with same | inside
    · cases same
    · exact b.noRoot p inside
  holds := b.holds
  nodes := by
    have before := b.nodes
    have obtained : allocs (.free a :: es) = allocs es := rfl
    have freed : frees (.free a :: es) = a :: frees es := rfl
    rw [obtained, freed]
    grind

/-- The order of the old cells does not matter either. -/
theorem Building.old_perm {old' : List Addr} (b : Building cells s old es trees loose) (same : old.Perm old') :
    Building cells s old' es trees loose where
  distinct := b.distinct
  fresh := fun a member => b.fresh a (same.mem_iff.mpr member)
  supply := b.supply
  stores := b.stores
  noRoot := b.noRoot
  holds := b.holds
  nodes := (same.symm.append_right _).trans b.nodes

/-- **`mkNode`** joins two trees in hand. -/
theorem Building.mkNode {l r : Tree} (b : Building cells s old es (l :: r :: trees) loose) (kv : Kv)
    (small : l.numNodes + r.numNodes + 1 < sizeLimit) :
    ∃ c es', RbTree.mkNode cells (ptr l) (ptr r) kv (s.emit es) = some (c, s.emit es') ∧
      Building cells s old es' (node (c, kv) l r :: trees) loose := by
  have left := b.holds l List.mem_cons_self
  have right := b.holds r (List.mem_cons_of_mem _ List.mem_cons_self)
  have size : unsigned (int (int (1 + heapSize (s.emit es).heap (ptr l)) + heapSize (s.emit es).heap (ptr r))) =
      l.numNodes + r.numNodes + 1 := by
    rw [St.emit_heap, heapSize_ptr left (by omega), heapSize_ptr right (by omega)]
    simp only [sizeLimit] at small
    rw [int_eq (x := 1 + (l.numNodes : Int)) (by omega) (by omega), int_eq (by omega) (by omega)]
    have same : (1 + (l.numNodes : Int) + (r.numNodes : Int)) = ((l.numNodes + r.numNodes + 1 : Nat) : Int) := by
      push_cast
      omega
    rw [same]
    exact unsigned_eq (by omega)
  have apart : ∀ t ∈ l :: r :: trees, ∀ a ∈ addrs t, cells (s.emit es).used ≠ a := by
    intro t member a inside
    refine b.next_fresh (b.mem ?_)
    simp only [List.mem_append, List.mem_flatMap]
    exact Or.inl (Or.inl ⟨t, member, inside⟩)
  refine ⟨_, _, (mkNode_run cells (ptr l) (ptr r) kv (s.emit es)).trans (by rw [St.emit_emit]), ?_⟩
  rw [size]
  generalize new : cells (s.emit es).used = c at apart
  have obtained : allocs (nodeEvents c (ptr l) (ptr r) (l.numNodes + r.numNodes + 1) kv) = [c] := rfl
  have freed : frees (nodeEvents c (ptr l) (ptr r) (l.numNodes + r.numNodes + 1) kv) = [] := rfl
  have frame : ∀ t ∈ l :: r :: trees, Holds (applyAll (applyAll s.heap es)
      (nodeEvents c (ptr l) (ptr r) (l.numNodes + r.numNodes + 1) kv)) t := by
    intro t member
    refine (b.holds t member).frame fun a inside => applyAll_of_ne _ fun e event target => ?_
    rcases nodeEvents_target e event with none | here
    · rw [none] at target; cases target
    · rw [here] at target
      exact apart t member a inside (Option.some.inj target)
  constructor
  · exact b.distinct
  · exact b.fresh
  · rw [allocs_append, obtained, List.length_append, List.length_singleton, List.range_succ, List.map_append, ← b.supply,
      List.map_singleton, ← new, St.emit_used]
  · intro e member a target
    rw [allocs_append, obtained]
    rcases List.mem_append.mp member with old | new
    · exact List.mem_append_left _ (b.stores e old a target)
    · rcases nodeEvents_target e new with none | here
      · rw [none] at target; cases target
      · rw [here] at target
        simp [← Option.some.inj target]
  · intro p member
    rcases List.mem_append.mp member with old | new
    · exact b.noRoot p old
    · simp [nodeEvents] at new
  · intro t member
    rw [applyAll_append]
    rcases List.mem_cons.mp member with rfl | member
    · exact ⟨applyAll_nodeEvents _ _ _ _ _ _, frame l List.mem_cons_self,
        frame r (List.mem_cons_of_mem _ List.mem_cons_self)⟩
    · exact frame t (List.mem_cons_of_mem _ (List.mem_cons_of_mem _ member))
  · have before := b.nodes
    rw [allocs_append, obtained, frees_append, freed, List.append_nil]
    simp only [List.flatMap_cons, addrs_node] at *
    have more := before.append_right [c]
    rw [List.append_assoc] at more
    refine more.trans ?_
    grind

/-! ## Rotations -/

/-- A function returned a node whose tree erases to `e` and put it in the place of the first trees. -/
def Builds (cells : Nat → Addr) (s : St) (old : List Addr) (result : Option (Addr × St)) (e : BinaryTree Kv)
    (trees : List Tree) (loose : List Addr) : Prop :=
  ∃ t c es, result = some (c, s.emit es) ∧ ptr t = some c ∧ erase t = e ∧ Building cells s old es (t :: trees) loose

/-- `singleL` builds the single rotation to the left, -/
theorem singleL_builds {l rl rr : Tree} {p : Addr × Kv} (kv : Kv)
    (b : Building cells s old es (l :: node p rl rr :: trees) loose)
    (small : l.numNodes + (rl.numNodes + rr.numNodes + 1) + 1 < sizeLimit) :
    Builds cells s old (singleL cells (ptr l) (some p.1) kv (s.emit es))
      (node p.2 (node kv (erase l) (erase rl)) (erase rr)) trees loose := by
  have here : (s.emit es).heap p.1 = ⟨ptr rl, ptr rr, rl.numNodes + rr.numNodes + 1, p.2⟩ :=
    (b.holds (node p rl rr) (by simp)).1
  have apart : Building cells s old es (l :: rl :: rr :: trees) (p.1 :: loose) :=
    (b.perm (List.Perm.swap _ _ _) List.Perm.rfl).split.perm (by grind) List.Perm.rfl
  obtain ⟨c₁, es₁, inner, b₁⟩ := apart.mkNode kv (by omega)
  obtain ⟨c₂, es₂, outer, b₂⟩ := b₁.mkNode p.2 (by simp only [numNodes]; omega)
  simp only [ptr_node] at outer
  refine ⟨_, c₂, _, ?_, rfl, rfl, b₂.free⟩
  rw [singleL, bind_run (rfl : deref (some p.1) (s.emit es) = _)]
  simp only [here]
  rw [bind_run inner, bind_run outer, ← St.emit_emit]
  rfl

/-- `singleR` the one to the right, -/
theorem singleR_builds {ll lr r : Tree} {p : Addr × Kv} (kv : Kv)
    (b : Building cells s old es (node p ll lr :: r :: trees) loose)
    (small : ll.numNodes + lr.numNodes + 1 + r.numNodes + 1 < sizeLimit) :
    Builds cells s old (singleR cells (some p.1) (ptr r) kv (s.emit es))
      (node p.2 (erase ll) (node kv (erase lr) (erase r))) trees loose := by
  have here : (s.emit es).heap p.1 = ⟨ptr ll, ptr lr, ll.numNodes + lr.numNodes + 1, p.2⟩ :=
    (b.holds (node p ll lr) (by simp)).1
  have apart : Building cells s old es (lr :: r :: ll :: trees) (p.1 :: loose) :=
    b.split.perm (by grind) List.Perm.rfl
  obtain ⟨c₁, es₁, inner, b₁⟩ := apart.mkNode kv (by omega)
  obtain ⟨c₂, es₂, outer, b₂⟩ := (b₁.perm (List.Perm.swap _ _ _) List.Perm.rfl).mkNode p.2 (by simp only [numNodes]; omega)
  simp only [ptr_node] at outer
  refine ⟨_, c₂, _, ?_, rfl, rfl, b₂.free⟩
  rw [singleR, bind_run (rfl : deref (some p.1) (s.emit es) = _)]
  simp only [here]
  rw [bind_run inner, bind_run outer, ← St.emit_emit]
  rfl

/-- `doubleL` the double rotation to the left, -/
theorem doubleL_builds {l a b rr : Tree} {p m : Addr × Kv} (kv : Kv)
    (w : Building cells s old es (l :: node p (node m a b) rr :: trees) loose)
    (small : l.numNodes + (a.numNodes + b.numNodes + 1 + rr.numNodes + 1) + 1 < sizeLimit) :
    Builds cells s old (doubleL cells (ptr l) (some p.1) kv (s.emit es))
      (node m.2 (node kv (erase l) (erase a)) (node p.2 (erase b) (erase rr))) trees loose := by
  have whole := w.holds (node p (node m a b) rr) (by simp)
  have here : (s.emit es).heap p.1 = ⟨some m.1, ptr rr, (node m a b).numNodes + rr.numNodes + 1, p.2⟩ := whole.1
  have middle : (s.emit es).heap m.1 = ⟨ptr a, ptr b, a.numNodes + b.numNodes + 1, m.2⟩ := whole.2.1.1
  have apart : Building cells s old es (l :: a :: b :: rr :: trees) (m.1 :: p.1 :: loose) :=
    (w.perm (List.Perm.swap _ _ _) List.Perm.rfl).split.split.perm (by grind) List.Perm.rfl
  obtain ⟨c₁, es₁, first, w₁⟩ := apart.mkNode kv (by omega)
  have reorder : (node (c₁, kv) l a :: b :: rr :: trees).Perm (b :: rr :: node (c₁, kv) l a :: trees) := by grind
  obtain ⟨c₂, es₂, second, w₂⟩ := (w₁.perm reorder List.Perm.rfl).mkNode p.2 (by omega)
  obtain ⟨c₃, es₃, outer, w₃⟩ := (w₂.perm (List.Perm.swap _ _ _) List.Perm.rfl).mkNode m.2 (by simp only [numNodes]; omega)
  simp only [ptr_node] at outer
  refine ⟨_, c₃, _, ?_, rfl, rfl, w₃.free.free⟩
  rw [doubleL, bind_run (rfl : deref (some p.1) (s.emit es) = _)]
  simp only [here]
  rw [bind_run (rfl : deref (some m.1) (s.emit es) = _)]
  simp only [middle]
  rw [bind_run first, bind_run second, bind_run outer, ← St.emit_emit, ← St.emit_emit]
  rfl

/-- and `doubleR` the one to the right. -/
theorem doubleR_builds {ll a b r : Tree} {p m : Addr × Kv} (kv : Kv)
    (w : Building cells s old es (node p ll (node m a b) :: r :: trees) loose)
    (small : ll.numNodes + (a.numNodes + b.numNodes + 1) + 1 + r.numNodes + 1 < sizeLimit) :
    Builds cells s old (doubleR cells (some p.1) (ptr r) kv (s.emit es))
      (node m.2 (node p.2 (erase ll) (erase a)) (node kv (erase b) (erase r))) trees loose := by
  have whole := w.holds (node p ll (node m a b)) (by simp)
  have here : (s.emit es).heap p.1 = ⟨ptr ll, some m.1, ll.numNodes + (node m a b).numNodes + 1, p.2⟩ := whole.1
  have middle : (s.emit es).heap m.1 = ⟨ptr a, ptr b, a.numNodes + b.numNodes + 1, m.2⟩ := whole.2.2.1
  have apart : Building cells s old es (ll :: a :: b :: r :: trees) (m.1 :: p.1 :: loose) :=
    (w.split.perm (List.Perm.swap _ _ _) List.Perm.rfl).split.perm (by grind) List.Perm.rfl
  obtain ⟨c₁, es₁, first, w₁⟩ := apart.mkNode p.2 (by omega)
  have reorder : (node (c₁, p.2) ll a :: b :: r :: trees).Perm (b :: r :: node (c₁, p.2) ll a :: trees) := by grind
  obtain ⟨c₂, es₂, second, w₂⟩ := (w₁.perm reorder List.Perm.rfl).mkNode kv (by omega)
  obtain ⟨c₃, es₃, outer, w₃⟩ := (w₂.perm (List.Perm.swap _ _ _) List.Perm.rfl).mkNode m.2 (by simp only [numNodes]; omega)
  simp only [ptr_node] at outer
  refine ⟨_, c₃, _, ?_, rfl, rfl, w₃.free.free⟩
  rw [doubleR, bind_run (rfl : deref (some p.1) (s.emit es) = _)]
  simp only [here]
  rw [bind_run (rfl : deref (some m.1) (s.emit es) = _)]
  simp only [middle]
  rw [bind_run first, bind_run second, bind_run outer, ← St.emit_emit, ← St.emit_emit]
  rfl

/-- `mkBalancedL` builds whichever rotation is due when the right subtree is heavy, -/
theorem mkBalancedL_builds {l r : Tree} (kv : Kv) (b : Building cells s old es (l :: r :: trees) loose)
    (small : l.numNodes + r.numNodes + 1 < sizeLimit) (large : 2 ≤ l.numNodes + r.numNodes)
    (heavy : r.numNodes > weight * l.numNodes) :
    Builds cells s old (mkBalancedL cells (ptr l) (ptr r) kv (s.emit es)) (rotateL kv (erase l) (erase r)) trees loose := by
  simp only [weight] at heavy
  cases r with
  | nil => simp only [numNodes] at heavy; omega
  | node p rl rr =>
    simp only [numNodes] at small large heavy
    obtain ⟨here, left, right⟩ := b.holds (node p rl rr) (by simp)
    have node : (s.emit es).heap p.1 = ⟨ptr rl, ptr rr, rl.numNodes + rr.numNodes + 1, p.2⟩ := here
    rw [mkBalancedL, ptr_node, bind_run (rfl : deref (some p.1) (s.emit es) = _)]
    simp only [node]
    rw [bind_run rfl, bind_run rfl, St.emit_heap, heapSize_ptr left (by omega), heapSize_ptr right (by omega)]
    simp only [rotateL, erase_node, numNodes_erase]
    by_cases outer : rl.numNodes < rr.numNodes
    · rw [if_pos outer, if_pos (by exact_mod_cast outer)]
      exact singleL_builds kv b (by omega)
    · rw [if_neg outer, if_neg (by exact_mod_cast outer)]
      -- the inner subtree is not empty: it is the larger half of at least one node
      cases rl with
      | nil => simp only [numNodes] at outer large heavy; omega
      | node m a c => exact doubleL_builds kv b (by simp only [numNodes] at small; omega)

/-- and `mkBalancedR` when the left one is. -/
theorem mkBalancedR_builds {l r : Tree} (kv : Kv) (b : Building cells s old es (l :: r :: trees) loose)
    (small : l.numNodes + r.numNodes + 1 < sizeLimit) (large : 2 ≤ l.numNodes + r.numNodes)
    (heavy : l.numNodes > weight * r.numNodes) :
    Builds cells s old (mkBalancedR cells (ptr l) (ptr r) kv (s.emit es)) (rotateR kv (erase l) (erase r)) trees loose := by
  simp only [weight] at heavy
  cases l with
  | nil => simp only [numNodes] at heavy; omega
  | node p ll lr =>
    simp only [numNodes] at small large heavy
    obtain ⟨here, left, right⟩ := b.holds (node p ll lr) (by simp)
    have node : (s.emit es).heap p.1 = ⟨ptr ll, ptr lr, ll.numNodes + lr.numNodes + 1, p.2⟩ := here
    rw [mkBalancedR, ptr_node, bind_run (rfl : deref (some p.1) (s.emit es) = _)]
    simp only [node]
    rw [bind_run rfl, bind_run rfl, St.emit_heap, heapSize_ptr left (by omega), heapSize_ptr right (by omega)]
    simp only [rotateR, erase_node, numNodes_erase]
    by_cases outer : lr.numNodes < ll.numNodes
    · rw [if_pos outer, if_pos (by exact_mod_cast outer)]
      exact singleR_builds kv b (by omega)
    · rw [if_neg outer, if_neg (by exact_mod_cast outer)]
      cases lr with
      | nil => simp only [numNodes] at outer large heavy; omega
      | node m a c => exact doubleR_builds kv b (by simp only [numNodes] at small; omega)

/-! ## `mkBalanced` out of place, and `deleteMin` -/

/-- The test of `mkBalanced` on the sizes of the two subtrees. -/
def BalancedSizes (ln rn : Nat) : Prop := ln + rn < 2 ∨ rn ≤ weight * ln ∧ ln ≤ weight * rn

instance (ln rn : Nat) : Decidable (BalancedSizes ln rn) := inferInstanceAs (Decidable (_ ∨ _))

/-- The branches of `mkBalanced` in terms of the trees. -/
theorem mkBalanced_eq {l r : Tree} {σ : St} (left : Holds σ.heap l) (right : Holds σ.heap r)
    (small : l.numNodes + r.numNodes + 1 < sizeLimit) (cur : Addr) (replace : Side) (inPlace : Bool) :
    mkBalanced cells cur (ptr l) (ptr r) replace inPlace σ =
      let kv := (σ.heap cur).kv
      let balanced := if inPlace then balancedInPlace cur (ptr l) (ptr r) replace else balancedCopy cells cur (ptr l) (ptr r) kv
      if l.numNodes + r.numNodes < 2 then balanced σ
      else if r.numNodes > weight * l.numNodes then
        (mkBalancedL cells (ptr l) (ptr r) kv >>= fun res => treeBBFreeNode cur >>= fun _ => pure res) σ
      else if l.numNodes > weight * r.numNodes then
        (mkBalancedR cells (ptr l) (ptr r) kv >>= fun res => treeBBFreeNode cur >>= fun _ => pure res) σ
      else balanced σ := by
  rw [mkBalanced, bind_run rfl, bind_run rfl, bind_run (rfl : load cur σ = _)]
  rw [heapSize_ptr left (by omega), heapSize_ptr right (by omega)]
  simp only [sizeLimit] at small
  have sum : int ((l.numNodes : Int) + r.numNodes) < 2 ↔ l.numNodes + r.numNodes < 2 := by
    rw [int_eq (by omega) (by omega)]
    omega
  have heavyR : (r.numNodes : Int) > int (weight * l.numNodes) ↔ r.numNodes > weight * l.numNodes := by
    rw [int_eq (by simp only [weight]; omega) (by simp only [weight]; omega)]
    simp only [weight]
    omega
  have heavyL : (l.numNodes : Int) > int (weight * r.numNodes) ↔ l.numNodes > weight * r.numNodes := by
    rw [int_eq (by simp only [weight]; omega) (by simp only [weight]; omega)]
    simp only [weight]
    omega
  simp only [sum, heavyR, heavyL]
  split_ifs <;> rfl

/-- What a rotation at the top leaves to do: free the node it replaces. -/
theorem Builds.free {x : TreeM Addr} {σ : St} {e : BinaryTree Kv} {cur : Addr}
    (built : Builds cells s old (x σ) e trees (cur :: loose)) :
    Builds cells s old ((x >>= fun res => treeBBFreeNode cur >>= fun _ => pure res) σ) e trees loose := by
  obtain ⟨t, c, es, run, isRoot, erased, b⟩ := built
  refine ⟨t, c, es ++ [.free cur], ?_, isRoot, erased, b.free⟩
  rw [bind_run run, ← St.emit_emit]
  rfl

/-- **`mkBalanced` that does not update in place** replaces `cur` by a balanced node. -/
theorem mkBalanced_builds {l r : Tree} {cur : Addr} {x : Kv} (b : Building cells s old es (l :: r :: trees) (cur :: loose))
    (element : ((s.emit es).heap cur).kv = x) (small : l.numNodes + r.numNodes + 1 < sizeLimit) (replace : Side)
    (inPlace : Bool) (build : inPlace = true → ¬ BalancedSizes l.numNodes r.numNodes) :
    Builds cells s old (mkBalanced cells cur (ptr l) (ptr r) replace inPlace (s.emit es))
      (balance weight x (erase l) (erase r)) trees loose := by
  have copy : inPlace = false → Builds cells s old (balancedCopy cells cur (ptr l) (ptr r) x (s.emit es))
      (node x (erase l) (erase r)) trees loose := by
    intro _
    obtain ⟨c, es', run, b'⟩ := b.mkNode x small
    exact Builds.free ⟨_, c, es', run, rfl, rfl, b'⟩
  rw [mkBalanced_eq (b.holds l (by simp)) (b.holds r (by simp)) small]
  simp only [balance, numNodes_erase, element]
  unfold BalancedSizes at build
  split_ifs with tiny inPlace' heavyR heavyL inPlace'
  · exact absurd (Or.inl tiny) (build inPlace')
  · exact copy (by simpa using inPlace')
  · exact (mkBalancedL_builds x b small (by omega) heavyR).free
  · exact (mkBalancedR_builds x b small (by omega) heavyL).free
  · exact absurd (Or.inr ⟨by omega, by omega⟩) (build inPlace')
  · exact copy (by simpa using inPlace')

/-- The nodes there at the start are not stored to. -/
theorem Building.heap_old {a : Addr} (b : Building cells s old es trees loose) (member : a ∈ old) :
    (s.emit es).heap a = s.heap a := by
  refine applyAll_of_ne _ fun e event target => ?_
  obtain ⟨i, _, here⟩ := b.mem_allocs (b.stores e event a target)
  exact b.fresh a member _ (Nat.le_add_right _ _) here

/-- **`deleteMin`** takes the minimum out of a tree in hand; the node that held it is not freed yet. -/
theorem deleteMin_builds (p : Addr × Kv) (l r : Tree) (loose : List Addr) (trees : List Tree) (fuel : Nat)
    (b : Building cells s old [] (node p l r :: trees) loose) (small : l.numNodes + r.numNodes + 1 < sizeLimit)
    (deep : l.numNodes + r.numNodes < fuel) :
    ∃ t min es, deleteMin cells fuel p.1 s = some ((ptr t, min), s.emit es) ∧
      Building cells s old es (t :: trees) (min :: loose) ∧ min ∈ old ∧
      (s.heap min).kv = (Lib.SearchTree.deleteMin weight p.2 (erase l) (erase r)).1 ∧
      erase t = (Lib.SearchTree.deleteMin weight p.2 (erase l) (erase r)).2 := by
  induction l generalizing p r loose trees fuel with
  | nil =>
    obtain ⟨fuel, rfl⟩ : ∃ n, fuel = n + 1 := ⟨fuel - 1, by omega⟩
    obtain ⟨here, _, _⟩ := b.holds (node p nil r) (by simp)
    have element : s.heap p.1 = ⟨none, ptr r, nil.numNodes + r.numNodes + 1, p.2⟩ := here
    have known : p.1 ∈ old := by
      have member := b.mem (a := p.1) (by simp)
      simpa [allocs] using member
    refine ⟨r, p.1, [], ?_, b.split.dropNil, known, by rw [element]; rfl, rfl⟩
    rw [deleteMin, bind_run (rfl : load p.1 s = _), element, St.emit_nil]
    rfl
  | node q ll lr ihl _ =>
    obtain ⟨fuel, rfl⟩ : ∃ n, fuel = n + 1 := ⟨fuel - 1, by omega⟩
    simp only [numNodes] at small deep
    obtain ⟨here, _, _⟩ := b.holds (node p (node q ll lr) r) (by simp)
    have element : s.heap p.1 = ⟨some q.1, ptr r, (node q ll lr).numNodes + r.numNodes + 1, p.2⟩ := here
    have known : p.1 ∈ old := by
      have member := b.mem (a := p.1) (by simp)
      simpa [allocs] using member
    obtain ⟨t, min, es, run, b₁, isOld, minimum, rest⟩ :=
      ihl q lr (p.1 :: loose) (r :: trees) fuel b.split (by omega) (by omega)
    have size : t.numNodes = ll.numNodes + lr.numNodes := by
      have same := congrArg List.length (inorder_deleteMin (w := weight) q.2 (erase ll) (erase lr))
      rw [← rest] at same
      simp at same
      omega
    obtain ⟨t', c, es', run', isRoot, erased, b₂⟩ := mkBalanced_builds (x := p.2)
      (b₁.perm List.Perm.rfl (List.Perm.swap _ _ _)) (by rw [b₁.heap_old known, element]) (by omega) .left false (by simp)
    refine ⟨t', min, es', ?_, b₂, isOld, minimum, ?_⟩
    · rw [deleteMin, bind_run (rfl : load p.1 s = _), element]
      simp only
      rw [bind_run run]
      simp only
      rw [bind_run run', isRoot]
      rfl
    · rw [erased, rest]
      rfl

end Building

end BiProject.RbTree
