import BiProject.RbTree.Update

/-!
# The tree as a finite map

`TreeBB_Insert`, `TreeBB_Delete` and `TreeBB_Find` on any memory that operations have reached from
the empty tree, against a reference map. The reference map is a list of pairs with distinct keys:
an insertion keeps an existing binding, a deletion removes it. `TreeBBNewNode` may return any cells
that are not in the tree, also ones that were in it before.
-/

namespace BiProject.RbTree
set_option autoImplicit false
open BiProject.Lib.SearchTree BinaryTree

inductive Op where
  | insert (key value : Nat)
  | delete (key : Nat)
  | find (key : Nat)
deriving DecidableEq, Repr

/-- What a call returns: nothing, a value (0 for NULL), or a pair (none for NULL). -/
inductive Res where
  | none
  | value (v : Nat)
  | pair (x : Option Kv)
deriving DecidableEq, Repr

def Op.run (fuel : Nat) (cells : Nat → Addr) (m : Mem) : Op → Option (Res × List Event)
  | .insert key value => (treeBBInsert fuel cells m key value).map fun es => (.none, es)
  | .delete key => (treeBBDelete fuel cells m key).map fun (v, es) => (.value v, es)
  | .find key => (treeBBFind fuel m key).map fun x => (.pair x, [])

/-- The reference map after an operation. -/
def Op.ref (M : List Kv) : Op → List Kv
  | .insert key value => if M.any fun x => x.key = key then M else ⟨key, value⟩ :: M
  | .delete key => M.filter fun x => decide (x.key ≠ key)
  | .find _ => M

/-- What the operation should return. -/
def Op.answer (M : List Kv) : Op → Res
  | .insert _ _ => .none
  | .delete key => .value (((M.find? fun x => x.key = key).map Kv.value).getD 0)
  | .find key => .pair (M.find? fun x => x.key = key)

/-- The operation on the tree without addresses. -/
def Op.onTree (t : BinaryTree Kv) : Op → BinaryTree Kv
  | .insert key value => Lib.SearchTree.insert Kv.key weight ⟨key, value⟩ t
  | .delete key => Lib.SearchTree.delete Kv.key weight key t
  | .find _ => t

def Mem.applyAll (m : Mem) (es : List Event) : Mem := es.foldl Mem.apply m

/-- The nodes reachable from a pointer. -/
inductive Reach (h : Heap) : Option Addr → Addr → Prop where
  | here {a : Addr} : Reach h (some a) a
  | left {a b : Addr} (below : Reach h (h a).left b) : Reach h (some a) b
  | right {a b : Addr} (below : Reach h (h a).right b) : Reach h (some a) b

/-- Cells that `TreeBBNewNode` may return during an operation. -/
structure Fresh (cells : Nat → Addr) (m : Mem) : Prop where
  distinct : Function.Injective cells
  unused : ∀ i, ¬ Reach m.heap m.root (cells i)

/-- The trees considered have fewer nodes than this. -/
def maxNodes : Nat := 2 ^ 29

/-- The memories that operations reach from the empty tree while it stays below `2 ^ 29` nodes, each
with the reference map. -/
inductive Reached (fuel : Nat) : List Kv → Mem → Prop where
  | empty {h : Heap} : Reached fuel [] ⟨h, none⟩
  | op {M : List Kv} {m : Mem} {cells : Nat → Addr} {op : Op} {res : Res} {es : List Event} (before : Reached fuel M m)
      (fresh : Fresh cells m) (run : op.run fuel cells m = some (res, es)) (small : (op.ref M).length < maxNodes) :
      Reached fuel (op.ref M) (m.applyAll es)

/-- Under `tree->root` memory holds the tree `t`, sizes included; it is a search tree on distinct
nodes and its pairs are those of the map. -/
structure Represents (m : Mem) (t : Tree) (M : List Kv) : Prop where
  holds : Holds m.heap t
  root : ptr t = m.root
  nodup : (addrs t).Nodup
  ordered : Ordered Kv.key (erase t)
  contents : (kvs t).Perm M

theorem Shape.reach_iff {h : Heap} {t : Tree} (shape : Shape h t) (a : Addr) : Reach h (ptr t) a ↔ a ∈ addrs t := by
  induction t with
  | nil =>
    constructor
    · rintro ⟨⟩
    · intro member
      cases member
  | node p l r ihl ihr =>
    obtain ⟨left, right, _, shapeL, shapeR⟩ := shape
    simp only [addrs_node, List.mem_append, List.mem_cons, ptr_node]
    constructor
    · intro reach
      cases reach with
      | here => exact Or.inr (Or.inl rfl)
      | left below => exact Or.inl ((ihl shapeL).mp (left ▸ below))
      | right below => exact Or.inr (Or.inr ((ihr shapeR).mp (right ▸ below)))
    · rintro (inside | rfl | inside)
      · exact .left (by rw [left]; exact (ihl shapeL).mpr inside)
      · exact .here
      · exact .right (by rw [right]; exact (ihr shapeR).mpr inside)

section
variable {m : Mem} {t : Tree} {M : List Kv} {cells : Nat → Addr} {fuel : Nat}

theorem Represents.reach_iff (rep : Represents m t M) (a : Addr) : Reach m.heap m.root a ↔ a ∈ addrs t := by
  rw [← rep.root]
  exact rep.holds.shape.reach_iff a

theorem Represents.size (rep : Represents m t M) : t.numNodes = M.length := by
  rw [← rep.contents.length_eq, kvs, List.length_map, inorder_length]

/-- The search in the tree is the lookup in the map. -/
theorem Represents.search_eq (rep : Represents m t M) (key : Nat) :
    search Kv.key key (erase t) = M.find? fun x => x.key = key := by
  have same : ∀ x, x ∈ inorder (erase t) ↔ x ∈ M := fun x => by
    rw [← kvs_eq_inorder]
    exact rep.contents.mem_iff
  cases found : M.find? fun x => decide (x.key = key) with
  | none =>
    rw [search_eq_none_iff rep.ordered]
    intro x member isKey
    have absent := List.find?_eq_none.mp found x ((same x).mp member)
    exact absent (decide_eq_true isKey)
  | some x =>
    rw [search_eq_some_iff rep.ordered]
    exact ⟨(same x).mpr (List.mem_of_find?_eq_some found), by simpa using List.find?_some found⟩

theorem treeBBFindLoop_eq {h : Heap} (key : Nat) : ∀ (t : Tree) (fuel : Nat), Shape h t → t.numNodes ≤ fuel →
    treeBBFindLoop h key fuel (ptr t) = some (search Kv.key key (erase t)) := by
  intro t
  induction t with
  | nil =>
    intro fuel _ _
    cases fuel <;> rfl
  | node p l r ihl ihr =>
    intro fuel shape deep
    obtain ⟨left, right, pair, shapeL, shapeR⟩ := shape
    simp only [numNodes] at deep
    obtain ⟨fuel, rfl⟩ : ∃ n, fuel = n + 1 := ⟨fuel - 1, by omega⟩
    simp only [ptr_node, treeBBFindLoop, pair, left, right, erase_node, search]
    split_ifs with isKey less
    · rfl
    · exact ihl fuel shapeL (by omega)
    · exact ihr fuel shapeR (by omega)

/-- What an operation does to the tree below the root, before and up to the store to `tree->root`. -/
structure Operated (cells : Nat → Addr) (m : Mem) (t : Tree) (es : List Event) (t' : Tree) : Prop where
  updated : ∃ inner, Updated cells ⟨m.heap, 0, []⟩ t inner t' ∧ es = inner ++ publishRoot m.root (ptr t')

theorem applyAll_heap (m : Mem) (es : List Event) : (m.applyAll es).heap = applyAll m.heap es := by
  induction es generalizing m with
  | nil => rfl
  | cons e es ih => exact ih (m.apply e)

theorem applyAll_root {es : List Event} (m : Mem) (noRoot : ∀ p, Event.root p ∉ es) : (m.applyAll es).root = m.root := by
  induction es generalizing m with
  | nil => rfl
  | cons e es ih =>
    refine (ih (m.apply e) fun p member => noRoot p (List.mem_cons_of_mem _ member)).trans ?_
    cases e with
    | root p => exact absurd List.mem_cons_self (noRoot p)
    | _ => rfl

/-- The memory an operation leaves. -/
theorem Operated.memory {es : List Event} {t' : Tree} (op : Operated cells m t es t') :
    Holds (m.applyAll es).heap t' ∧ ptr t' = (m.applyAll es).root := by
  obtain ⟨inner, upd, rfl⟩ := op.updated
  obtain ⟨V, tn, evolve, _⟩ := upd.visible
  have kept := applyAll_root m (evolve.noRoot ·)
  have split : m.applyAll (inner ++ publishRoot m.root (ptr t')) =
      (m.applyAll inner).applyAll (publishRoot m.root (ptr t')) := List.foldl_append
  rw [split]
  unfold publishRoot
  by_cases change : m.root ≠ ptr t'
  · rw [if_pos change]
    refine ⟨?_, rfl⟩
    rw [applyAll_heap, applyAll_heap]
    exact upd.holds
  · rw [if_neg change]
    rw [not_not] at change
    refine ⟨?_, change.symm.trans kept.symm⟩
    rw [applyAll_heap, applyAll_heap]
    exact upd.holds

theorem Represents.subtree (rep : Represents m t M) (fresh : Fresh cells m) : Subtree cells ⟨m.heap, 0, []⟩ t where
  holds := rep.holds
  nodup := rep.nodup
  fresh := by
    rintro a member ⟨i, rfl⟩
    exact fresh.unused i ((rep.reach_iff _).mpr member)

/-- The insertion seen as a list. -/
theorem Represents.insert_perm (rep : Represents m t M) (x : Kv) :
    (inorder (Lib.SearchTree.insert Kv.key weight x (erase t))).Perm ((Op.insert x.key x.value).ref M) := by
  have same : ∀ y, y ∈ inorder (erase t) ↔ y ∈ M := fun y => by
    rw [← kvs_eq_inorder]
    exact rep.contents.mem_iff
  have nodup : M.Nodup := by
    rw [← rep.contents.nodup_iff, kvs_eq_inorder]
    exact rep.ordered.nodup
  have distinct : ((Op.insert x.key x.value).ref M).Nodup := by
    simp only [Op.ref]
    split_ifs with present
    · exact nodup
    · refine List.nodup_cons.mpr ⟨fun member => present ?_, nodup⟩
      exact List.any_eq_true.mpr ⟨x, member, by simp⟩
  rw [List.perm_ext_iff_of_nodup (ordered_insert rep.ordered x).nodup distinct]
  intro y
  rw [mem_insert rep.ordered]
  simp only [same, Op.ref]
  split_ifs with present
  · obtain ⟨z, member, isKey⟩ := List.any_eq_true.mp present
    refine ⟨fun either => either.elim id fun new => ?_, Or.inl⟩
    exact absurd (by simpa using isKey) (new.2 z member)
  · rw [List.mem_cons, or_comm]
    refine or_congr_left ⟨fun new => new.1, fun new => ⟨new, fun z member isKey => present ?_⟩⟩
    exact List.any_eq_true.mpr ⟨z, member, by simpa using isKey⟩

theorem Op.ref_length_le (M : List Kv) (op : Op) : (op.ref M).length ≤ M.length + 1 := by
  cases op with
  | insert key value =>
    simp only [Op.ref]
    split_ifs
    · exact Nat.le_succ _
    · exact Nat.le_refl _
  | delete key => exact Nat.le_trans (List.length_filter_le _ _) (Nat.le_succ _)
  | find key => exact Nat.le_succ _

/-- **One operation** on a tree that represents a map. -/
theorem Represents.step (rep : Represents m t M) (deep : maxNodes ≤ fuel) (small : M.length < maxNodes)
    (fresh : Fresh cells m) (op : Op) :
    ∃ es t', op.run fuel cells m = some (op.answer M, es) ∧ Represents (m.applyAll es) t' (op.ref M) ∧
      Operated cells m t es t' ∧ erase t' = op.onTree (erase t) := by
  have sub := rep.subtree fresh
  have size := rep.size
  have grown := op.ref_length_le M
  simp only [maxNodes] at deep small
  have finish : ∀ {es : List Event} {t' : Tree}, Operated cells m t es t' → Ordered Kv.key (erase t') →
      (inorder (erase t')).Perm (op.ref M) → Represents (m.applyAll es) t' (op.ref M) := by
    intro es t' operated ordered contents
    obtain ⟨inner, upd, _⟩ := operated.updated
    exact ⟨operated.memory.1, operated.memory.2, upd.nodup_result fresh.distinct sub, ordered,
      by rw [kvs_eq_inorder]; exact contents⟩
  cases op with
  | insert key value =>
    have contents := rep.insert_perm ⟨key, value⟩
    obtain ⟨t', es, run, upd, erased⟩ := insert_updates fresh.distinct ⟨key, value⟩ t fuel sub
      (by rw [← inorder_length, contents.length_eq, sizeLimit]; simp only at *; omega) (by omega)
    have operated : Operated cells m t (es ++ publishRoot m.root (ptr t')) t' := ⟨es, upd, rfl⟩
    refine ⟨_, t', ?_, finish operated ?_ ?_, operated, erased⟩
    · rw [Op.run, treeBBInsert, ← rep.root, run]
      rfl
    · rw [erased]
      exact ordered_insert rep.ordered _
    · rw [erased]
      exact contents
  | delete key =>
    obtain ⟨t', es, run, upd, erased⟩ := delete_updates fresh.distinct key t fuel sub (by rw [sizeLimit]; omega)
      (by omega)
    have operated : Operated cells m t (es ++ publishRoot m.root (ptr t')) t' := ⟨es, upd, rfl⟩
    refine ⟨_, t', ?_, finish operated ?_ ?_, operated, erased⟩
    · rw [Op.run, treeBBDelete, ← rep.root, run]
      simp only [Option.map_some, Op.answer, deletedValue, rep.search_eq]
      rfl
    · rw [erased]
      exact ordered_delete rep.ordered _
    · rw [erased, inorder_delete rep.ordered, ← kvs_eq_inorder]
      exact rep.contents.filter _
  | find key =>
    have operated : Operated cells m t [] t := by
      refine ⟨[], .of_built sub ?_, ?_⟩
      · exact Building.start fresh.distinct (by simpa using rep.holds) (by simp) fun a member i _ same =>
          sub.fresh a member ⟨i, same⟩
      · rw [publishRoot, rep.root]
        simp
    refine ⟨[], t, ?_, finish operated rep.ordered ?_, operated, rfl⟩
    · rw [Op.run, treeBBFind, ← rep.root, treeBBFindLoop_eq key t fuel rep.holds.shape (by omega), rep.search_eq]
      rfl
    · rw [← kvs_eq_inorder]
      exact rep.contents

/-- **Every reached memory represents its map.** -/
theorem Reached.represents (deep : maxNodes ≤ fuel) (reached : Reached fuel M m) :
    M.length < maxNodes ∧ ∃ t, Represents m t M := by
  induction reached with
  | empty =>
    refine ⟨by decide, nil, ?_⟩
    exact ⟨trivial, rfl, List.nodup_nil, List.Pairwise.nil, List.Perm.nil⟩
  | op before fresh run small ih =>
    obtain ⟨small₀, t, rep⟩ := ih
    obtain ⟨es', t', run', rep', _⟩ := rep.step deep small₀ fresh _
    obtain ⟨_, rfl⟩ := Prod.mk.inj (Option.some.inj (run.symm.trans run'))
    exact ⟨small, t', rep'⟩

/-- **The tree refines a finite map.** In every memory that operations reach from the empty tree, the
tree under the root is a search tree with exact sizes and the pairs of the reference map; and every
operation on it, whatever unused cells `TreeBBNewNode` returns, runs to its end, returns what the map
says and leaves such a tree for the new map. -/
theorem treeBB_refines_map (deep : maxNodes ≤ fuel) (reached : Reached fuel M m) :
    (∃ t, Represents m t M) ∧
    ∀ (op : Op) (cells : Nat → Addr), Fresh cells m →
      ∃ es t', op.run fuel cells m = some (op.answer M, es) ∧ Represents (m.applyAll es) t' (op.ref M) := by
  obtain ⟨small, t, rep⟩ := reached.represents deep
  refine ⟨⟨t, rep⟩, fun op cells fresh => ?_⟩
  obtain ⟨es, t', run, rep', _⟩ := rep.step deep small fresh op
  exact ⟨es, t', run, rep'⟩

/-- **Updates free exactly the garbage.** The nodes freed by an operation are distinct and not in the
tree afterwards, and the nodes in the tree before together with those obtained are the nodes in the
tree afterwards together with those freed. -/
theorem treeBB_garbage_exact (deep : maxNodes ≤ fuel) (reached : Reached fuel M m) (fresh : Fresh cells m) (op : Op) :
    ∃ res es, op.run fuel cells m = some (res, es) ∧ (frees es).Nodup ∧
      (∀ a ∈ frees es, ¬ Reach (m.applyAll es).heap (m.applyAll es).root a) ∧
      ∀ a, Reach m.heap m.root a ∨ a ∈ allocs es ↔
        Reach (m.applyAll es).heap (m.applyAll es).root a ∨ a ∈ frees es := by
  obtain ⟨small, t, rep⟩ := reached.represents deep
  obtain ⟨es, t', run, rep', operated, _⟩ := rep.step deep small fresh op
  obtain ⟨inner, upd, rfl⟩ := operated.updated
  have noAlloc : allocs (publishRoot m.root (ptr t')) = [] := by unfold publishRoot; split_ifs <;> rfl
  have noFree : frees (publishRoot m.root (ptr t')) = [] := by unfold publishRoot; split_ifs <;> rfl
  have nodup := upd.nodes.nodup_iff.mp (upd.nodup fresh.distinct (rep.subtree fresh))
  obtain ⟨_, distinct, apart⟩ := List.nodup_append.mp nodup
  refine ⟨_, _, run, ?_⟩
  simp only [allocs_append, frees_append, noAlloc, noFree, List.append_nil, rep.reach_iff, rep'.reach_iff]
  refine ⟨distinct, fun a freed inside => apart a inside a freed rfl, fun a => ?_⟩
  rw [← List.mem_append, ← List.mem_append]
  exact upd.nodes.mem_iff

end

/-- An empty tree, and the tree 1, 2 that two insertions make of it. -/
def emptyTree : Mem := ⟨fun _ => ⟨none, none, 0, ⟨0, 0⟩⟩, none⟩

def chain : Mem :=
  (emptyTree.applyAll (nodeEvents 0 none none 1 ⟨1, 1⟩ ++ [.root (some 0)])).applyAll
    (nodeEvents 10 none none 1 ⟨2, 2⟩ ++ [.link .right 0 (some 10), .size 0 2])

theorem emptyTree_fresh : Fresh id emptyTree := by
  refine ⟨Function.injective_id, fun i reach => ?_⟩
  cases reach

/-- Cells from `n` on are unused where the tree has only lower ones. -/
theorem fresh_above {m : Mem} {t : Tree} {n : Nat} (shape : Shape m.heap t) (root : ptr t = m.root)
    (below : ∀ a ∈ addrs t, a < n) : Fresh (n + ·) m := by
  refine ⟨fun i j same => Nat.add_left_cancel same, fun i reach => ?_⟩
  rw [← root, shape.reach_iff] at reach
  have bound : n + i < n := below _ reach
  omega

theorem chain_reached : Reached maxNodes [⟨2, 2⟩, ⟨1, 1⟩] chain := by
  have first : Reached maxNodes [⟨1, 1⟩] _ :=
    .op .empty emptyTree_fresh (rfl : (Op.insert 1 1).run maxNodes id emptyTree = _) (by decide)
  have fresh : Fresh (10 + ·) (emptyTree.applyAll (nodeEvents 0 none none 1 ⟨1, 1⟩ ++ [.root (some 0)])) :=
    fresh_above (t := node (0, ⟨1, 1⟩) nil nil) ⟨rfl, rfl, rfl, trivial, trivial⟩ rfl (by decide)
  exact .op first fresh (rfl : (Op.insert 2 2).run maxNodes (10 + ·) _ = _) (by decide)

theorem chain_fresh : Fresh (20 + ·) chain :=
  fresh_above (t := node (0, ⟨1, 1⟩) nil (node (10, ⟨2, 2⟩) nil nil))
    ⟨rfl, rfl, rfl, trivial, rfl, rfl, rfl, trivial, trivial⟩ rfl (by decide)

/-- The deletion of the root of the tree 1, 2 returns its value. -/
theorem treeBB_refines_map_chain :
    ∃ es t', (Op.delete 1).run maxNodes (20 + ·) chain = some (.value 1, es) ∧
      Represents (chain.applyAll es) t' [⟨2, 2⟩] :=
  (treeBB_refines_map (Nat.le_refl _) chain_reached).2 (.delete 1) (20 + ·) chain_fresh

/-- The insertion of 3 into the tree 1, 2 rotates: three nodes are obtained, two are freed. -/
theorem treeBB_garbage_exact_rotation :
    ∃ es, (Op.insert 3 3).run maxNodes (20 + ·) chain = some (.none, es) ∧ allocs es = [20, 21, 22] ∧
      frees es = [10, 0] ∧
      ∀ a, Reach chain.heap chain.root a ∨ a ∈ allocs es ↔
        Reach (chain.applyAll es).heap (chain.applyAll es).root a ∨ a ∈ frees es := by
  obtain ⟨res, es, run, _, _, exact'⟩ := treeBB_garbage_exact (Nat.le_refl _) chain_reached chain_fresh (.insert 3 3)
  obtain ⟨rfl, rfl⟩ := Prod.mk.inj (Option.some.inj ((rfl : (Op.insert 3 3).run maxNodes (20 + ·) chain = _).symm.trans run))
  exact ⟨_, rfl, rfl, rfl, exact'⟩

end BiProject.RbTree
