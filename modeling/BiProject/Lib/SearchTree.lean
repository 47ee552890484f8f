import Mathlib.Data.List.Perm.Basic
import Mathlib.Data.Tree.Basic
import Mathlib.Order.Basic
import Mathlib.Order.Lattice

/-!
# Weight-balanced search trees

Binary trees read in order, searched by a key and updated by insertion and deletion that rotate on
the way up. A node is balanced for a weight `w` when the sizes of its subtrees differ at most by
the factor `w`; a single rotation is taken when the inner subtree of the heavier side is smaller
than the outer one, a double rotation otherwise. Whatever is rotated, the elements in order stay the
same (`inorder_balance`), so insertion and deletion are correct for every weight; whether they keep
a tree balanced depends on it and is not a matter of this module.
-/

namespace BiProject.Lib.SearchTree
set_option autoImplicit false
open BinaryTree

variable {α : Type*}

/-- The elements from left to right. -/
def inorder : BinaryTree α → List α
  | nil => []
  | node x l r => inorder l ++ x :: inorder r

@[simp] theorem inorder_nil : inorder (nil : BinaryTree α) = [] := rfl

@[simp] theorem inorder_node (x : α) (l r : BinaryTree α) : inorder (node x l r) = inorder l ++ x :: inorder r := rfl

@[simp] theorem inorder_length (t : BinaryTree α) : (inorder t).length = t.numNodes := by
  induction t with
  | nil => rfl
  | node x l r ihl ihr => simp [ihl, ihr, Nat.add_assoc]

/-- The elements of a mapped tree. -/
theorem inorder_map {β : Type*} (f : α → β) (t : BinaryTree α) : inorder (t.map f) = (inorder t).map f := by
  induction t with
  | nil => rfl
  | node x l r ihl ihr => simp [BinaryTree.map, ihl, ihr]

@[simp] theorem numNodes_map {β : Type*} (f : α → β) (t : BinaryTree α) : (t.map f).numNodes = t.numNodes := by
  rw [← inorder_length, inorder_map, List.length_map, inorder_length]

/-! ## Rebalancing -/

/-- The right subtree is the heavier one. A double rotation needs an inner subtree; there is one
whenever `rotateL` is called for. -/
def rotateL (x : α) (l : BinaryTree α) : BinaryTree α → BinaryTree α
  | nil => node x l nil
  | node y rl rr =>
    if rl.numNodes < rr.numNodes then node y (node x l rl) rr
    else match rl with
      | nil => node x l (node y nil rr)
      | node z a b => node z (node x l a) (node y b rr)

/-- The left subtree is the heavier one. -/
def rotateR (x : α) (l r : BinaryTree α) : BinaryTree α :=
  match l with
  | nil => node x nil r
  | node y ll lr =>
    if lr.numNodes < ll.numNodes then node y ll (node x lr r)
    else match lr with
      | nil => node x (node y ll nil) r
      | node z a b => node z (node y ll a) (node x b r)

/-- A node with these subtrees, rotated if they are out of balance. -/
def balance (w : Nat) (x : α) (l r : BinaryTree α) : BinaryTree α :=
  if l.numNodes + r.numNodes < 2 then node x l r
  else if r.numNodes > w * l.numNodes then rotateL x l r
  else if l.numNodes > w * r.numNodes then rotateR x l r
  else node x l r

/-- A rotation to the left keeps the order, -/
theorem inorder_rotateL (x : α) (l r : BinaryTree α) : inorder (rotateL x l r) = inorder l ++ x :: inorder r := by
  cases r with
  | nil => rfl
  | node y rl rr =>
    simp only [rotateL]
    split
    · simp
    · cases rl <;> simp

/-- and so does one to the right. -/
theorem inorder_rotateR (x : α) (l r : BinaryTree α) : inorder (rotateR x l r) = inorder l ++ x :: inorder r := by
  cases l with
  | nil => rfl
  | node y ll lr =>
    simp only [rotateR]
    split
    · simp
    · cases lr <;> simp

/-- **Rebalancing keeps the elements in order.** -/
theorem inorder_balance (w : Nat) (x : α) (l r : BinaryTree α) :
    inorder (balance w x l r) = inorder l ++ x :: inorder r := by
  unfold balance
  split_ifs
  · rfl
  · exact inorder_rotateL x l r
  · exact inorder_rotateR x l r
  · rfl

/-- Rebalancing takes no node and adds none. -/
theorem numNodes_balance (w : Nat) (x : α) (l r : BinaryTree α) :
    (balance w x l r).numNodes = l.numNodes + r.numNodes + 1 := by
  rw [← inorder_length, inorder_balance]
  simp [Nat.add_assoc]

/-! ## Left and right exchanged -/

/-- Left and right exchanged, all the way down. -/
def mirror : BinaryTree α → BinaryTree α
  | nil => nil
  | node x l r => node x (mirror r) (mirror l)

@[simp] theorem mirror_nil : mirror (nil : BinaryTree α) = nil := rfl

@[simp] theorem mirror_node (x : α) (l r : BinaryTree α) : mirror (node x l r) = node x (mirror r) (mirror l) := rfl

@[simp] theorem mirror_mirror (t : BinaryTree α) : mirror (mirror t) = t := by
  induction t with
  | nil => rfl
  | node x l r ihl ihr => simp [ihl, ihr]

@[simp] theorem numNodes_mirror (t : BinaryTree α) : (mirror t).numNodes = t.numNodes := by
  induction t with
  | nil => rfl
  | node x l r ihl ihr => simp [BinaryTree.numNodes, ihl, ihr, Nat.add_comm]

/-- A rotation to the left is one to the right in the mirror, -/
theorem mirror_rotateL (x : α) (l r : BinaryTree α) : mirror (rotateL x l r) = rotateR x (mirror r) (mirror l) := by
  cases r with
  | nil => rfl
  | node y rl rr =>
    simp only [rotateL, rotateR, mirror_node, numNodes_mirror]
    split
    · rfl
    · cases rl <;> rfl

/-- and the other way round. -/
theorem mirror_rotateR (x : α) (l r : BinaryTree α) : mirror (rotateR x l r) = rotateL x (mirror r) (mirror l) := by
  rw [← mirror_mirror (rotateL _ _ _), mirror_rotateL, mirror_mirror, mirror_mirror]

/-- Only one side is too heavy. -/
theorem mirror_balance {w : Nat} (positive : 0 < w) (x : α) (l r : BinaryTree α) :
    mirror (balance w x l r) = balance w x (mirror r) (mirror l) := by
  unfold balance
  simp only [numNodes_mirror, Nat.add_comm r.numNodes]
  split_ifs with tiny heavyR heavyL
  · rfl
  · exfalso
    have more := Nat.le_mul_of_pos_left l.numNodes positive
    have most := Nat.le_mul_of_pos_left r.numNodes positive
    omega
  · exact mirror_rotateL x l r
  · exact mirror_rotateR x l r
  · rfl

/-! ## Search, insertion, deletion -/

variable {κ : Type*} [LinearOrder κ]

/-- Keys strictly increase from left to right. -/
def Ordered (key : α → κ) (t : BinaryTree α) : Prop := (inorder t).Pairwise fun x y => key x < key y

/-- The element with key `k` on the path that `k` takes. -/
def search (key : α → κ) (k : κ) : BinaryTree α → Option α
  | nil => none
  | node x l r => if key x = k then some x else if k < key x then search key k l else search key k r

/-- Adds an element, unless its key is there. -/
def insert (key : α → κ) (w : Nat) (y : α) : BinaryTree α → BinaryTree α
  | nil => node y nil nil
  | node x l r =>
    if key y < key x then balance w x (insert key w y l) r
    else if key x < key y then balance w x l (insert key w y r)
    else node x l r

/-- The leftmost element of a node with these parts, and the rest of it. -/
def deleteMin (w : Nat) (x : α) : BinaryTree α → BinaryTree α → α × BinaryTree α
  | nil, r => (x, r)
  | node y ll lr, r => ((deleteMin w y ll lr).1, balance w x (deleteMin w y ll lr).2 r)

/-- What is left of a node when its element goes. -/
def join (w : Nat) : BinaryTree α → BinaryTree α → BinaryTree α
  | nil, r => r
  | l, nil => l
  | l, node y rl rr => balance w (deleteMin w y rl rr).1 l (deleteMin w y rl rr).2

/-- Takes out the element with the key `k`, if there is one. -/
def delete (key : α → κ) (w : Nat) (k : κ) : BinaryTree α → BinaryTree α
  | nil => nil
  | node x l r =>
    if k < key x then balance w x (delete key w k l) r
    else if key x < k then balance w x l (delete key w k r)
    else join w l r

section Order
variable {key : α → κ} {w : Nat}

/-- Order, part by part. -/
theorem ordered_node {x : α} {l r : BinaryTree α} :
    Ordered key (node x l r) ↔
      Ordered key l ∧ Ordered key r ∧ (∀ y ∈ inorder l, key y < key x) ∧ ∀ y ∈ inorder r, key x < key y := by
  simp only [Ordered, inorder_node, List.pairwise_append, List.pairwise_cons, List.mem_cons]
  constructor
  · rintro ⟨left, ⟨above, right⟩, cross⟩
    exact ⟨left, right, fun y member => cross y member x (Or.inl rfl), above⟩
  · rintro ⟨left, right, below, above⟩
    refine ⟨left, ⟨above, right⟩, fun y member z other => ?_⟩
    rcases other with rfl | later
    · exact below y member
    · exact lt_trans (below y member) (above z later)

/-- An ordered tree has each element once. -/
theorem Ordered.nodup {t : BinaryTree α} (ordered : Ordered key t) : (inorder t).Nodup :=
  List.Pairwise.imp (fun less same => absurd (congrArg key same) (ne_of_lt less)) ordered

/-- **Search finds the element with the key.** -/
theorem search_eq_some_iff {t : BinaryTree α} (ordered : Ordered key t) {k : κ} {y : α} :
    search key k t = some y ↔ y ∈ inorder t ∧ key y = k := by
  induction t with
  | nil => simp [search]
  | node x l r ihl ihr =>
    obtain ⟨left, right, below, above⟩ := ordered_node.mp ordered
    simp only [search, inorder_node, List.mem_append, List.mem_cons]
    rcases lt_trichotomy k (key x) with less | same | greater
    · rw [if_neg (ne_of_gt less), if_pos less, ihl left]
      constructor
      · rintro ⟨member, isKey⟩
        exact ⟨Or.inl member, isKey⟩
      · rintro ⟨member | rfl | member, isKey⟩
        · exact ⟨member, isKey⟩
        · exact absurd isKey (ne_of_gt less)
        · exact absurd isKey (ne_of_gt (lt_trans less (above y member)))
    · subst same
      rw [if_pos rfl]
      constructor
      · rintro ⟨⟩
        exact ⟨Or.inr (Or.inl rfl), rfl⟩
      · rintro ⟨member | rfl | member, isKey⟩
        · exact absurd isKey (ne_of_lt (below y member))
        · rfl
        · exact absurd isKey (ne_of_gt (above y member))
    · rw [if_neg (ne_of_lt greater), if_neg (not_lt_of_gt greater), ihr right]
      constructor
      · rintro ⟨member, isKey⟩
        exact ⟨Or.inr (Or.inr member), isKey⟩
      · rintro ⟨member | rfl | member, isKey⟩
        · exact absurd isKey (ne_of_lt (lt_trans (below y member) greater))
        · exact absurd isKey (ne_of_lt greater)
        · exact ⟨member, isKey⟩

/-- It finds nothing where no element has the key. -/
theorem search_eq_none_iff {t : BinaryTree α} (ordered : Ordered key t) {k : κ} :
    search key k t = none ↔ ∀ y ∈ inorder t, key y ≠ k := by
  rw [Option.eq_none_iff_forall_ne_some]
  simp only [ne_eq, search_eq_some_iff ordered, not_and]

/-- Rebalancing keeps the keys in order. -/
theorem ordered_balance {x : α} {l r : BinaryTree α} (ordered : Ordered key (node x l r)) :
    Ordered key (balance w x l r) := by
  rw [Ordered, inorder_balance]
  exact ordered

/-- An insertion adds the element unless its key is there. -/
theorem mem_insert {t : BinaryTree α} (ordered : Ordered key t) {y z : α} :
    z ∈ inorder (insert key w y t) ↔ z ∈ inorder t ∨ z = y ∧ ∀ x ∈ inorder t, key x ≠ key y := by
  induction t with
  | nil => simp [insert]
  | node x l r ihl ihr =>
    obtain ⟨left, right, below, above⟩ := ordered_node.mp ordered
    simp only [insert]
    rcases lt_trichotomy (key y) (key x) with less | same | greater
    · rw [if_pos less, inorder_balance]
      simp only [inorder_node, List.mem_append, List.mem_cons, ihl left]
      have others : (∀ v, v ∈ inorder l ∨ v = x ∨ v ∈ inorder r → key v ≠ key y) ↔ ∀ v ∈ inorder l, key v ≠ key y := by
        refine ⟨fun all v member => all v (Or.inl member), fun all v member => ?_⟩
        rcases member with member | rfl | member
        · exact all v member
        · exact ne_of_gt less
        · exact ne_of_gt (lt_trans less (above v member))
      rw [others]
      exact or_right_comm
    · rw [if_neg (by rw [same]; exact lt_irrefl _), if_neg (by rw [same]; exact lt_irrefl _)]
      constructor
      · exact Or.inl
      · rintro (member | ⟨rfl, absent⟩)
        · exact member
        · exact absurd same.symm (absent x (by simp))
    · rw [if_neg (not_lt_of_gt greater), if_pos greater, inorder_balance]
      simp only [inorder_node, List.mem_append, List.mem_cons, ihr right]
      have others : (∀ v, v ∈ inorder l ∨ v = x ∨ v ∈ inorder r → key v ≠ key y) ↔ ∀ v ∈ inorder r, key v ≠ key y := by
        refine ⟨fun all v member => all v (Or.inr (Or.inr member)), fun all v member => ?_⟩
        rcases member with member | rfl | member
        · exact ne_of_lt (lt_trans (below v member) greater)
        · exact ne_of_lt greater
        · exact all v member
      rw [others]
      rw [or_assoc, or_assoc]

/-- An insertion keeps the keys in order. -/
theorem ordered_insert {t : BinaryTree α} (ordered : Ordered key t) (y : α) : Ordered key (insert key w y t) := by
  induction t with
  | nil => exact List.pairwise_singleton _ _
  | node x l r ihl ihr =>
    obtain ⟨left, right, below, above⟩ := ordered_node.mp ordered
    simp only [insert]
    split_ifs with less greater
    · refine ordered_balance (ordered_node.mpr ⟨ihl left, right, fun z member => ?_, above⟩)
      rcases (mem_insert left).mp member with old | ⟨rfl, _⟩
      · exact below z old
      · exact less
    · refine ordered_balance (ordered_node.mpr ⟨left, ihr right, below, fun z member => ?_⟩)
      rcases (mem_insert right).mp member with old | ⟨rfl, _⟩
      · exact above z old
      · exact greater
    · exact ordered

/-- The minimum comes first, and the rest after it. -/
theorem inorder_deleteMin (x : α) (l r : BinaryTree α) :
    (deleteMin w x l r).1 :: inorder (deleteMin w x l r).2 = inorder l ++ x :: inorder r := by
  induction l generalizing x r with
  | nil => rfl
  | node y ll lr ihl _ =>
    simp only [deleteMin, inorder_balance, inorder_node]
    rw [← List.cons_append, ihl y lr]

/-- A join puts one tree behind the other. -/
theorem inorder_join (l r : BinaryTree α) : inorder (join w l r) = inorder l ++ inorder r := by
  cases l with
  | nil => rfl
  | node x ll lr =>
    cases r with
    | nil => simp [join]
    | node y rl rr => simp only [join, inorder_balance, inorder_deleteMin, inorder_node]

/-- **A deletion takes out the element with the key** and leaves the others in order. -/
theorem inorder_delete {t : BinaryTree α} (ordered : Ordered key t) (k : κ) :
    inorder (delete key w k t) = (inorder t).filter fun x => decide (key x ≠ k) := by
  have keep : ∀ xs : List α, (∀ y ∈ xs, key y ≠ k) → xs.filter (fun x => decide (key x ≠ k)) = xs := fun xs other =>
    List.filter_eq_self.mpr fun y member => decide_eq_true (other y member)
  induction t with
  | nil => rfl
  | node x l r ihl ihr =>
    obtain ⟨left, right, below, above⟩ := ordered_node.mp ordered
    simp only [delete]
    rcases lt_trichotomy k (key x) with less | same | greater
    · rw [if_pos less, inorder_balance, ihl left]
      simp only [inorder_node, List.filter_append, List.filter_cons, decide_eq_true (ne_of_gt less), if_true]
      rw [keep (inorder r) fun y member => ne_of_gt (lt_trans less (above y member))]
    · subst same
      rw [if_neg (lt_irrefl _), if_neg (lt_irrefl _), inorder_join]
      simp only [inorder_node, List.filter_append, List.filter_cons, ne_eq, not_true_eq_false, decide_false]
      rw [keep (inorder l) fun y member => ne_of_lt (below y member),
        keep (inorder r) fun y member => ne_of_gt (above y member)]
      simp
    · rw [if_neg (not_lt_of_gt greater), if_pos greater, inorder_balance, ihr right]
      simp only [inorder_node, List.filter_append, List.filter_cons, decide_eq_true (ne_of_lt greater), if_true]
      rw [keep (inorder l) fun y member => ne_of_lt (lt_trans (below y member) greater)]

/-- A deletion keeps the keys in order, -/
theorem ordered_delete {t : BinaryTree α} (ordered : Ordered key t) (k : κ) : Ordered key (delete key w k t) := by
  rw [Ordered, inorder_delete ordered]
  exact List.Pairwise.filter _ ordered

end Order

section Size
variable {key : α → κ} {w : Nat}

/-- and adds no node. -/
theorem numNodes_delete_le (k : κ) (t : BinaryTree α) : (delete key w k t).numNodes ≤ t.numNodes := by
  induction t with
  | nil => exact Nat.le_refl _
  | node x l r ihl ihr =>
    have joined : (join w l r).numNodes = l.numNodes + r.numNodes := by
      rw [← inorder_length, inorder_join]
      simp
    simp only [delete]
    split_ifs <;> simp only [numNodes_balance, numNodes] <;> omega

end Size

end BiProject.Lib.SearchTree
