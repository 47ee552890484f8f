import BiProject.RbTree.Operations

/-!
# Weight balance

A rotation makes two or three new nodes. A single rotation leaves them all balanced. A double
rotation cuts the inner subtree of the heavier side in two, and each half goes under a new node
with what stands beside it: the outer subtree, or the lighter side. Nothing in the choice between
single and double rotation looks at the halves, and one of less than a quarter is out of balance.

What a call of `mkBalanced` does depends on a few numbers of nodes (`Outline`), and these can be
followed through an operation without the trees that it makes.
-/

namespace BiProject.RbTree
set_option autoImplicit false
open BiProject.Lib.SearchTree BinaryTree

variable {α : Type}

/-- Every node passes the test of `mkBalanced`. -/
def AllBalanced : BinaryTree α → Prop
  | nil => True
  | node _ l r => BalancedSizes l.numNodes r.numNodes ∧ AllBalanced l ∧ AllBalanced r

instance : (t : BinaryTree α) → Decidable (AllBalanced t)
  | nil => isTrue trivial
  | node _ l r =>
    have := instDecidableAllBalanced l
    have := instDecidableAllBalanced r
    inferInstanceAs (Decidable (_ ∧ _ ∧ _))

/-! ## The numbers that decide a rotation -/

/-- How many nodes the two subtrees of a tree have; `none` for the empty tree. -/
abbrev Halves := Option (Nat × Nat)

/-- How many nodes they make, -/
def Halves.size : Halves → Nat
  | none => 0
  | some (a, b) => a + b + 1

/-- and what they are in the mirror. -/
def Halves.mirror (h : Halves) : Halves := h.map Prod.swap

/-- The halves of a tree. -/
def halves : BinaryTree α → Halves
  | nil => none
  | node _ l r => some (l.numNodes, r.numNodes)

/-- The halves of the two subtrees of a node. -/
structure Outline where
  left : Halves
  right : Halves
deriving DecidableEq

/-- How many nodes an outline has, -/
def Outline.size (o : Outline) : Nat := o.left.size + o.right.size + 1

/-- and what it is in the mirror. -/
def Outline.mirror (o : Outline) : Outline := ⟨o.right.mirror, o.left.mirror⟩

/-- The outline of a tree. -/
def outline : BinaryTree α → Outline
  | nil => ⟨none, none⟩
  | node _ l r => ⟨halves l, halves r⟩

/-- A side with `n` nodes is rotated when this many stand beside it. -/
def TooHeavy (n other : Nat) : Prop := 2 ≤ n + other ∧ weight * other < n

instance (n other : Nat) : Decidable (TooHeavy n other) := inferInstanceAs (Decidable (_ ∧ _))

/-- A left side of this outline next to a right one of `other` nodes: if a double rotation cuts the inner subtree, then
neither half has less than a quarter of what it is put beside. -/
def Outline.Fits (o : Outline) (other : Nat) : Prop :=
  match o.right with
  | none => True
  | some (a, b) => TooHeavy o.size other → o.left.size ≤ o.right.size →
    (o.left.size + a < 2 ∨ o.left.size ≤ weight * a) ∧ (b + other < 2 ∨ other ≤ weight * b)

instance (o : Outline) (other : Nat) : Decidable (o.Fits other) := by
  unfold Outline.Fits
  split <;> infer_instance

/-- The outline of what `mkBalanced` makes of these two sides, when the right one is not the heavier. -/
def Outline.above (o : Outline) (r : Halves) : Outline :=
  if TooHeavy o.size r.size then
    match o.right with
    | some (a, b) =>
      if o.right.size < o.left.size then ⟨o.left, some (o.right.size, r.size)⟩ else ⟨some (o.left.size, a), some (b, r.size)⟩
    | none => ⟨o.left, some (0, r.size)⟩
  else ⟨some (o.left.size, o.right.size), r⟩

@[simp] theorem size_halves (t : BinaryTree α) : (halves t).size = t.numNodes := by
  cases t <;> rfl

@[simp] theorem size_mirror (h : Halves) : h.mirror.size = h.size := by
  cases h with
  | none => rfl
  | some p => simp [Halves.mirror, Halves.size, Nat.add_comm]

@[simp] theorem halves_mirror (t : BinaryTree α) : halves (mirror t) = (halves t).mirror := by
  cases t with
  | nil => rfl
  | node x l r => simp [halves, Halves.mirror]

@[simp] theorem outline_mirror (t : BinaryTree α) : outline (mirror t) = (outline t).mirror := by
  cases t with
  | nil => rfl
  | node x l r => simp [outline, Outline.mirror]

@[simp] theorem mirror_mirror_halves (h : Halves) : h.mirror.mirror = h := by
  cases h <;> rfl

@[simp] theorem mirror_mirror_outline (o : Outline) : o.mirror.mirror = o := by
  simp [Outline.mirror]

/-- An outline has as many nodes as its tree. -/
theorem size_outline (x : α) (l r : BinaryTree α) : (outline (node x l r)).size = (node x l r).numNodes := by
  simp [outline, Outline.size, BinaryTree.numNodes]

/-- When the outline of a left subtree fits, in sizes. -/
theorem fits_node {y z : α} {ll a b : BinaryTree α} {other : Nat} :
    (outline (node y ll (node z a b))).Fits other ↔
      (TooHeavy (node y ll (node z a b)).numNodes other → ll.numNodes ≤ (node z a b).numNodes →
        (ll.numNodes + a.numNodes < 2 ∨ ll.numNodes ≤ weight * a.numNodes) ∧
          (b.numNodes + other < 2 ∨ other ≤ weight * b.numNodes)) := by
  have same : (halves ll).size = ll.numNodes := size_halves ll
  simp only [Outline.Fits, outline, Outline.size, same]
  exact Iff.rfl

/-- The test is the same from either side. -/
theorem balancedSizes_comm {ln rn : Nat} : BalancedSizes ln rn ↔ BalancedSizes rn ln := by
  simp only [BalancedSizes, weight]
  omega

@[simp] theorem allBalanced_mirror (t : BinaryTree α) : AllBalanced (mirror t) ↔ AllBalanced t := by
  induction t with
  | nil => exact Iff.rfl
  | node x l r ihl ihr =>
    simp only [mirror_node, AllBalanced, numNodes_mirror, ihl, ihr, balancedSizes_comm]
    constructor
    · rintro ⟨here, right, left⟩
      exact ⟨here, left, right⟩
    · rintro ⟨here, left, right⟩
      exact ⟨here, right, left⟩

/-- What is balanced stays so when the lighter side grows. -/
theorem BalancedSizes.not_tooHeavy {ln rn n : Nat} (balanced : BalancedSizes ln rn) (more : rn ≤ n) : ¬ TooHeavy ln n := by
  simp only [BalancedSizes, TooHeavy, weight] at *
  omega

/-! ## One call of `mkBalanced` -/

/-- The sizes of the two subtrees were balanced before one of them changed by at most one node. -/
inductive NearBalanced (ln rn : Nat) : Prop where
  | left {ln₀ : Nat} (before : BalancedSizes ln₀ rn) (change : ln = ln₀ ∨ ln = ln₀ + 1 ∨ ln + 1 = ln₀)
  | right {rn₀ : Nat} (before : BalancedSizes ln rn₀) (change : rn = rn₀ ∨ rn = rn₀ + 1 ∨ rn + 1 = rn₀)

/-- One insertion or deletion away from balance, from either side. -/
theorem NearBalanced.mirror {ln rn : Nat} (near : NearBalanced ln rn) : NearBalanced rn ln := by
  cases near with
  | left before change => exact .right (balancedSizes_comm.mp before) change
  | right before change => exact .left (balancedSizes_comm.mp before) change

/-- In numbers, for the weight of the code. -/
theorem NearBalanced.bounds {ln rn : Nat} (near : NearBalanced ln rn) :
    ln + rn < 3 ∨ rn ≤ 4 * ln + 4 ∧ ln ≤ 4 * rn + 1 ∧ (rn ≤ 4 * ln + 1 ∨ ln ≤ 4 * rn) ∨
      rn ≤ 4 * ln + 1 ∧ ln ≤ 4 * rn + 4 ∧ (rn ≤ 4 * ln ∨ ln ≤ 4 * rn + 1) := by
  cases near with
  | left before change => simp only [BalancedSizes, weight] at before; omega
  | right before change => simp only [BalancedSizes, weight] at before; omega

section Rotations
variable {x : α} {l r : BinaryTree α}

/-- Nothing is done where neither side is too heavy, -/
theorem balance_light (lightL : ¬ TooHeavy l.numNodes r.numNodes) (lightR : ¬ TooHeavy r.numNodes l.numNodes) :
    balance weight x l r = node x l r := by
  simp only [TooHeavy] at lightL lightR
  unfold balance
  split_ifs with tiny heavyR heavyL
  · rfl
  · exact absurd ⟨by omega, heavyR⟩ lightR
  · exact absurd ⟨by omega, heavyL⟩ lightL
  · rfl

/-- a rotation to the right where the left side is, -/
theorem balance_heavyL (heavy : TooHeavy l.numNodes r.numNodes) : balance weight x l r = rotateR x l r := by
  simp only [TooHeavy, weight] at heavy
  unfold balance
  rw [if_neg (by omega), if_neg (by simp only [weight]; omega), if_pos (by simp only [weight]; omega)]

/-- and one to the left where the right side is. -/
theorem balance_heavyR (heavy : TooHeavy r.numNodes l.numNodes) : balance weight x l r = rotateL x l r := by
  simp only [TooHeavy, weight] at heavy
  unfold balance
  rw [if_neg (by omega), if_pos (by simp only [weight]; omega)]

/-- **A rotation balances exactly the outlines that fit.** -/
theorem rotateR_balanced_iff (left : AllBalanced l) (right : AllBalanced r)
    (near : NearBalanced l.numNodes r.numNodes) (heavy : TooHeavy l.numNodes r.numNodes) :
    AllBalanced (rotateR x l r) ↔ (outline l).Fits r.numNodes := by
  have bounds := near.bounds
  cases l with
  | nil => simp only [TooHeavy, weight, numNodes] at heavy; omega
  | node y ll lr =>
    obtain ⟨here, leftL, rightL⟩ := left
    cases lr with
    | nil =>
      -- the outer subtree is the larger one
      simp only [TooHeavy, BalancedSizes, weight, numNodes] at heavy here bounds
      have single : rotateR x (node y ll nil) r = node y ll (node x nil r) := by
        have outer : (nil : BinaryTree α).numNodes < ll.numNodes := by
          change 0 < _
          omega
        simp only [rotateR, if_pos outer]
      refine ⟨fun _ => trivial, fun _ => ?_⟩
      rw [single]
      refine ⟨?_, leftL, ⟨?_, trivial, right⟩⟩ <;> simp only [BalancedSizes, weight, numNodes] <;> omega
    | node z a b =>
      obtain ⟨inner, leftA, rightB⟩ := rightL
      have weighed := heavy
      simp only [TooHeavy, BalancedSizes, weight, numNodes] at weighed here inner bounds
      rw [fits_node]
      by_cases outer : (node z a b).numNodes < ll.numNodes
      · simp only [rotateR, if_pos outer]
        simp only [numNodes] at outer
        refine ⟨fun _ _ order => ?_, fun _ => ⟨?_, leftL, ⟨?_, ⟨?_, leftA, rightB⟩, right⟩⟩⟩
        · simp only [numNodes] at order
          omega
        all_goals simp only [BalancedSizes, weight, numNodes]; omega
      · have double : rotateR x (node y ll (node z a b)) r = node z (node y ll a) (node x b r) := by
          simp only [rotateR, if_neg outer]
        rw [double]
        constructor
        · rintro ⟨_, ⟨first, _, _⟩, second, _, _⟩ _ _
          simp only [BalancedSizes, weight] at first second ⊢
          omega
        · intro fits
          have cut := fits heavy (Nat.le_of_not_lt outer)
          simp only [weight] at cut
          simp only [numNodes] at outer
          refine ⟨?_, ⟨?_, leftL, leftA⟩, ?_, rightB, right⟩ <;> simp only [BalancedSizes, weight, numNodes] <;> omega

/-- One side is too heavy at most. -/
theorem TooHeavy.other {n m : Nat} (heavy : TooHeavy n m) : ¬ TooHeavy m n := by
  simp only [TooHeavy, weight] at *
  omega

/-- A side that is not rotated is not cut. -/
theorem fits_light {t : BinaryTree α} {other : Nat} (light : ¬ TooHeavy t.numNodes other) : (outline t).Fits other := by
  cases t with
  | nil => trivial
  | node y ll lr =>
    cases lr with
    | nil => trivial
    | node z a b => exact fits_node.mpr fun heavy => absurd heavy light

/-- What is not too heavy fits. -/
theorem fits_light_mirror {t : BinaryTree α} {other : Nat} (light : ¬ TooHeavy t.numNodes other) : (outline t).mirror.Fits other := by
  rw [← outline_mirror]
  exact fits_light (by rwa [numNodes_mirror])

/-- Balancing commutes with the mirror. -/
theorem mirror_balance_weight : mirror (balance weight x l r) = balance weight x (mirror r) (mirror l) :=
  mirror_balance (by decide) x l r

/-- **`mkBalanced` makes a balanced tree exactly when the halves fit.** -/
theorem balance_balanced_iff (left : AllBalanced l) (right : AllBalanced r) (near : NearBalanced l.numNodes r.numNodes) :
    AllBalanced (balance weight x l r) ↔ (outline l).Fits r.numNodes ∧ (outline r).mirror.Fits l.numNodes := by
  by_cases heavyL : TooHeavy l.numNodes r.numNodes
  · have other := fits_light_mirror (t := r) heavyL.other
    rw [balance_heavyL heavyL, rotateR_balanced_iff left right near heavyL]
    exact (and_iff_left other).symm
  · have fits := fits_light heavyL
    by_cases heavyR : TooHeavy r.numNodes l.numNodes
    · have turned := rotateR_balanced_iff (x := x) (l := mirror r) (r := mirror l) (by simpa using right) (by simpa using left)
        (by simpa using near.mirror) (by simpa using heavyR)
      rw [← allBalanced_mirror, mirror_balance_weight, balance_heavyL (by simpa using heavyR), turned, outline_mirror, numNodes_mirror]
      exact (and_iff_right fits).symm
    · have other := fits_light_mirror heavyR
      rw [balance_light heavyL heavyR]
      refine ⟨fun _ => ⟨fits, other⟩, fun _ => ⟨?_, left, right⟩⟩
      simp only [TooHeavy, BalancedSizes, weight] at *
      omega

/-! ## What stays -/

/-- A side that is not rotated is kept whole. -/
theorem AllBalanced.of_balance_left (balanced : AllBalanced (balance weight x l r)) (light : ¬ TooHeavy l.numNodes r.numNodes) :
    AllBalanced l := by
  by_cases heavyR : TooHeavy r.numNodes l.numNodes
  · rw [balance_heavyR heavyR] at balanced
    cases r with
    | nil => exact balanced.2.1
    | node y rl rr =>
      simp only [rotateL] at balanced
      split at balanced
      · exact balanced.2.1.2.1
      · cases rl with
        | nil => exact balanced.2.1
        | node z a b => exact balanced.2.1.2.1
  · rw [balance_light light heavyR] at balanced
    exact balanced.2.1

/-- Some node below the root is out of balance. -/
def BrokenBelow : BinaryTree α → Prop
  | nil => False
  | node _ l r => ¬ AllBalanced l ∨ ¬ AllBalanced r

/-- A tree that an insertion has left with a node out of balance, in such a way that no rotation above it mends that: the
node is at least two levels down, or it is a child that a rotation would leave whole, or cut so that a half is out of
balance again. -/
inductive Stuck : BinaryTree α → Prop where
  | below {x : α} {l r : BinaryTree α} (broken : BrokenBelow l ∨ BrokenBelow r) : Stuck (node x l r)
  | left {x y : α} {a b r : BinaryTree α} (lopsided : ¬ BalancedSizes a.numNodes b.numNodes)
      (less : a.numNodes + b.numNodes + 1 ≤ r.numNodes)
      (outer : a.numNodes + b.numNodes + 1 = r.numNodes → weight * b.numNodes < a.numNodes) : Stuck (node x (node y a b) r)
  | right {x y : α} {l a b : BinaryTree α} (lopsided : ¬ BalancedSizes a.numNodes b.numNodes)
      (less : a.numNodes + b.numNodes + 1 ≤ l.numNodes)
      (outer : a.numNodes + b.numNodes + 1 = l.numNodes → weight * a.numNodes < b.numNodes) : Stuck (node x l (node y a b))

/-- A subtree is broken in the mirror too. -/
theorem brokenBelow_mirror {t : BinaryTree α} (broken : BrokenBelow t) : BrokenBelow (mirror t) := by
  cases t with
  | nil => exact broken
  | node x l r =>
    simp only [mirror_node, BrokenBelow, allBalanced_mirror]
    exact broken.symm

/-- A tree with a broken subtree is not balanced. -/
theorem BrokenBelow.not_balanced {t : BinaryTree α} (broken : BrokenBelow t) : ¬ AllBalanced t := by
  cases t with
  | nil => exact broken.elim
  | node x l r =>
    rintro ⟨_, left, right⟩
    exact broken.elim (· left) (· right)

/-- What is stuck is stuck in the mirror, -/
theorem Stuck.mirror {t : BinaryTree α} (stuck : Stuck t) : Stuck (mirror t) := by
  cases stuck with
  | below broken => exact .below (broken.symm.imp brokenBelow_mirror brokenBelow_mirror)
  | left lopsided less outer =>
    refine .right (fun balanced => lopsided ?_) ?_ ?_
    · simpa [balancedSizes_comm] using balanced
    · simpa [Nat.add_comm] using less
    · simpa [Nat.add_comm] using outer
  | right lopsided less outer =>
    refine .left (fun balanced => lopsided ?_) ?_ ?_
    · simpa [balancedSizes_comm] using balanced
    · simpa [Nat.add_comm] using less
    · simpa [Nat.add_comm] using outer

/-- and has a broken subtree. -/
theorem Stuck.brokenBelow {t : BinaryTree α} (stuck : Stuck t) : BrokenBelow t := by
  cases stuck with
  | below broken => exact broken.imp BrokenBelow.not_balanced BrokenBelow.not_balanced
  | left lopsided => exact Or.inl fun balanced => lopsided balanced.1
  | right lopsided => exact Or.inr fun balanced => lopsided balanced.1

/-- **No rotation above mends it.** The left side has grown by one node at most. -/
theorem Stuck.balance_left {n : Nat} (stuck : Stuck l) (before : BalancedSizes n r.numNodes)
    (change : l.numNodes = n ∨ l.numNodes = n + 1) : Stuck (balance weight x l r) := by
  have lightR : ¬ TooHeavy r.numNodes l.numNodes := (balancedSizes_comm.mp before).not_tooHeavy (by omega)
  by_cases heavy : TooHeavy l.numNodes r.numNodes
  · rw [balance_heavyL heavy]
    cases l with
    | nil => cases stuck
    | node z ll lr =>
      by_cases outer : lr.numNodes < ll.numNodes
      · simp only [rotateR, if_pos outer]
        cases stuck with
        | below broken => exact .below (broken.imp id fun inner => Or.inl inner.not_balanced)
        | left lopsided less => simp only [numNodes] at outer; omega
        | right lopsided => exact .below (Or.inr (Or.inl fun balanced => lopsided balanced.1))
      · cases lr with
        | nil =>
          simp only [TooHeavy, BalancedSizes, weight, numNodes] at heavy before change outer
          omega
        | node w a b =>
          simp only [rotateR, if_neg outer]
          cases stuck with
          | below broken =>
            rcases broken with outside | inner | inner
            · exact .below (Or.inl (Or.inl outside.not_balanced))
            · exact .below (Or.inl (Or.inr inner))
            · exact .below (Or.inr (Or.inl inner))
          | left lopsided => exact .below (Or.inl (Or.inl fun balanced => lopsided balanced.1))
          | right lopsided less outside =>
            -- both children were of one size, and the outer one now has the smaller half of the other beside it
            simp only [TooHeavy, BalancedSizes, weight, numNodes] at heavy before change outer less outside lopsided
            refine .left ?_ ?_ ?_ <;> simp only [BalancedSizes, weight, numNodes] <;> omega
  · rw [balance_light heavy lightR]
    exact .below (Or.inl stuck.brokenBelow)

/-- A double rotation that does not fit leaves such a tree. -/
theorem stuck_of_not_fits {n : Nat} (left : AllBalanced l) (before : BalancedSizes n r.numNodes)
    (change : l.numNodes = n ∨ l.numNodes = n + 1) (unfit : ¬ (outline l).Fits r.numNodes) : Stuck (balance weight x l r) := by
  cases l with
  | nil => exact absurd trivial unfit
  | node z ll lr =>
    cases lr with
    | nil => exact absurd trivial unfit
    | node w a b =>
      rw [fits_node] at unfit
      push Not at unfit
      obtain ⟨heavy, order, cut⟩ := unfit
      rw [balance_heavyL heavy]
      simp only [rotateR, if_neg (Nat.not_lt.mpr order)]
      obtain ⟨here, _, inner, _⟩ := left
      simp only [TooHeavy, BalancedSizes, weight, numNodes] at heavy here inner before change order cut
      by_cases first : ll.numNodes + a.numNodes < 2 ∨ ll.numNodes ≤ 4 * a.numNodes
      · have second := cut first
        refine .right ?_ ?_ ?_ <;> simp only [BalancedSizes, weight, numNodes] <;> omega
      · refine .left ?_ ?_ ?_ <;> simp only [BalancedSizes, weight, numNodes] <;> omega

end Rotations

end BiProject.RbTree
