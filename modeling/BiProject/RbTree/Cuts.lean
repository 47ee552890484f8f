import BiProject.RbTree.Balance

/-!
# Which operations keep the tree balanced

What the calls of `mkBalanced` in an operation will meet can be told from the tree and the key
before it. A deletion takes a node away on one side and may rotate the other one, which it has not
touched. An insertion may rotate the side that it has just changed; how many nodes stand where is
followed up the path from the sizes before (`insertOutline`).

On a balanced tree the condition is exact: no later rotation of the operation mends what a bad cut
has left.
-/

namespace BiProject.RbTree
set_option autoImplicit false
open BiProject.Lib.SearchTree BinaryTree

/-! ## The condition on the tree and the key -/

/-- How many nodes will be below the root when `key` has been inserted. -/
def insertOutline (key : Nat) : BinaryTree Kv → Outline
  | nil => ⟨none, none⟩
  | node x l r =>
    if key < x.key then (insertOutline key l).above (halves r)
    else if x.key < key then ((insertOutline key r).mirror.above (halves l).mirror).mirror
    else ⟨halves l, halves r⟩

/-- On the path of the key every side that has become too heavy fits. -/
def InsertFits (key : Nat) : BinaryTree Kv → Prop
  | nil => True
  | node x l r =>
    if key < x.key then InsertFits key l ∧ (insertOutline key l).Fits r.numNodes
    else if x.key < key then InsertFits key r ∧ (insertOutline key r).mirror.Fits l.numNodes
    else True

/-- One node if the key is in the tree. -/
def holding (key : Nat) (t : BinaryTree Kv) : Nat := if (search Kv.key key t).isSome then 1 else 0

/-- The leftmost node goes from under a node with these subtrees: on the way to it, every right side that is too heavy
for one node less fits. -/
def DeleteMinFits : BinaryTree Kv → BinaryTree Kv → Prop
  | nil, _ => True
  | node _ ll lr, r => DeleteMinFits ll lr ∧ (outline r).mirror.Fits (ll.numNodes + lr.numNodes)

/-- The node that is deleted has these subtrees. -/
def JoinFits : BinaryTree Kv → BinaryTree Kv → Prop
  | node x ll lr, node _ rl rr => DeleteMinFits rl rr ∧ (outline (node x ll lr)).Fits (rl.numNodes + rr.numNodes)
  | _, _ => True

/-- On the path of the key every other side that is too heavy for one node less fits. -/
def DeleteFits (key : Nat) : BinaryTree Kv → Prop
  | nil => True
  | node x l r =>
    if key < x.key then DeleteFits key l ∧ (outline r).mirror.Fits (l.numNodes - holding key l)
    else if x.key < key then DeleteFits key r ∧ (outline l).Fits (r.numNodes - holding key r)
    else JoinFits l r

/-- The operation cuts no inner subtree of this tree badly. -/
def Op.Fits (t : BinaryTree Kv) : Op → Prop
  | .insert key _ => InsertFits key t
  | .delete key => DeleteFits key t
  | .find _ => True

/-! ## Insertion -/

/-- An insertion adds one node, or none. -/
theorem numNodes_insert (y : Kv) (t : BinaryTree Kv) :
    (Lib.SearchTree.insert Kv.key weight y t).numNodes = t.numNodes ∨
      (Lib.SearchTree.insert Kv.key weight y t).numNodes = t.numNodes + 1 := by
  induction t with
  | nil => exact Or.inr rfl
  | node x l r ihl ihr =>
    simp only [Lib.SearchTree.insert]
    split_ifs
    · rw [numNodes_balance, numNodes]
      omega
    · rw [numNodes_balance, numNodes]
      omega
    · exact Or.inl rfl

/-- The outline of what `mkBalanced` makes. -/
theorem outline_balance {x : Kv} {l r : BinaryTree Kv} (some : l ≠ nil) (lightR : ¬ TooHeavy r.numNodes l.numNodes) :
    outline (balance weight x l r) = (outline l).above (halves r) := by
  cases l with
  | nil => exact absurd rfl some
  | node y ll lr =>
    unfold Outline.above
    rw [size_outline, size_halves]
    by_cases heavy : TooHeavy (node y ll lr).numNodes r.numNodes
    · rw [balance_heavyL heavy, if_pos heavy]
      cases lr with
      | nil =>
        simp only [TooHeavy, weight, numNodes] at heavy
        have outer : (nil : BinaryTree Kv).numNodes < ll.numNodes := by
          change 0 < _
          omega
        simp only [rotateR, if_pos outer]
        rfl
      | node z a b =>
        change _ = if (halves (node z a b)).size < (halves ll).size then
            Outline.mk (halves ll) (.some ((halves (node z a b)).size, r.numNodes))
          else Outline.mk (.some ((halves ll).size, a.numNodes)) (.some (b.numNodes, r.numNodes))
        rw [size_halves, size_halves]
        by_cases outer : (node z a b).numNodes < ll.numNodes
        · simp only [rotateR, if_pos outer]
          rfl
        · simp only [rotateR, if_neg outer]
          rfl
    · rw [balance_light heavy lightR, if_neg heavy]
      change _ = Outline.mk (.some ((halves ll).size, (halves lr).size)) (halves r)
      rw [size_halves, size_halves]
      rfl

/-- An insertion leaves something. -/
theorem insert_ne_nil (y : Kv) (t : BinaryTree Kv) : Lib.SearchTree.insert Kv.key weight y t ≠ nil := by
  intro empty
  have size := numNodes_insert y t
  rw [empty] at size
  cases t with
  | nil => cases empty
  | node x l r => simp only [numNodes] at size; omega

/-- The outline is the one foretold. -/
theorem outline_insert (y : Kv) {t : BinaryTree Kv} (balanced : AllBalanced t) :
    outline (Lib.SearchTree.insert Kv.key weight y t) = insertOutline y.key t := by
  induction t with
  | nil => rfl
  | node x l r ihl ihr =>
    obtain ⟨here, left, right⟩ := balanced
    simp only [Lib.SearchTree.insert, insertOutline]
    split_ifs with less greater
    · have grown := numNodes_insert y l
      rw [outline_balance (insert_ne_nil y l) ((balancedSizes_comm.mp here).not_tooHeavy (by omega)), ihl left]
    · have grown := numNodes_insert y r
      have turned := outline_balance (x := x) (l := mirror (Lib.SearchTree.insert Kv.key weight y r)) (r := mirror l)
        (fun empty => insert_ne_nil y r (by simpa using congrArg mirror empty))
        (by simpa using here.not_tooHeavy (n := (Lib.SearchTree.insert Kv.key weight y r).numNodes) (by omega))
      rw [← mirror_balance_weight, outline_mirror, outline_mirror, halves_mirror, ihr right] at turned
      rw [← turned, mirror_mirror_outline]
    · rfl

/-- On the side of the key; `l` is what the insertion has made of it. -/
theorem balance_balanced_or_stuck {n : Nat} {x : Kv} {l r : BinaryTree Kv} {fits : Prop}
    (inner : fits ∧ AllBalanced l ∨ ¬ fits ∧ Stuck l) (right : AllBalanced r) (before : BalancedSizes n r.numNodes)
    (grown : l.numNodes = n ∨ l.numNodes = n + 1) :
    (fits ∧ (outline l).Fits r.numNodes) ∧ AllBalanced (balance weight x l r) ∨
      ¬ (fits ∧ (outline l).Fits r.numNodes) ∧ Stuck (balance weight x l r) := by
  rcases inner with ⟨fit, left⟩ | ⟨unfit, stuck⟩
  · have whole := balance_balanced_iff (x := x) left right (.left before (grown.imp_right Or.inl))
    have light := fits_light_mirror ((balancedSizes_comm.mp before).not_tooHeavy (n := l.numNodes) (by omega))
    by_cases cut : (outline l).Fits r.numNodes
    · exact Or.inl ⟨⟨fit, cut⟩, whole.mpr ⟨cut, light⟩⟩
    · exact Or.inr ⟨fun both => cut both.2, stuck_of_not_fits left before grown cut⟩
  · exact Or.inr ⟨fun both => unfit both.1, stuck.balance_left before grown⟩

/-- An insertion that does not fit leaves a tree that no rotation above mends. -/
theorem insert_balanced_or_stuck (y : Kv) {t : BinaryTree Kv} (balanced : AllBalanced t) :
    InsertFits y.key t ∧ AllBalanced (Lib.SearchTree.insert Kv.key weight y t) ∨
      ¬ InsertFits y.key t ∧ Stuck (Lib.SearchTree.insert Kv.key weight y t) := by
  induction t with
  | nil => exact Or.inl ⟨trivial, Or.inl (by decide), trivial, trivial⟩
  | node x l r ihl ihr =>
    obtain ⟨here, left, right⟩ := balanced
    simp only [InsertFits, Lib.SearchTree.insert]
    split_ifs with less greater
    · rw [← outline_insert y left]
      exact balance_balanced_or_stuck (ihl left) right here (numNodes_insert y l)
    · -- the same with left and right exchanged
      rw [← outline_insert y right, ← outline_mirror]
      have inner : InsertFits y.key r ∧ AllBalanced (mirror (Lib.SearchTree.insert Kv.key weight y r)) ∨
          ¬ InsertFits y.key r ∧ Stuck (mirror (Lib.SearchTree.insert Kv.key weight y r)) :=
        (ihr right).imp (And.imp_right (allBalanced_mirror _).mpr) (And.imp_right Stuck.mirror)
      have turned := balance_balanced_or_stuck (x := x) (r := mirror l) (n := r.numNodes) inner (by simpa using left)
        (by simpa using balancedSizes_comm.mp here) (by simpa using numNodes_insert y r)
      rw [numNodes_mirror, ← mirror_balance_weight, allBalanced_mirror] at turned
      exact turned.imp_right (And.imp_right fun stuck => by simpa using stuck.mirror)
    · exact Or.inl ⟨trivial, here, left, right⟩

/-- **An insertion leaves a balanced tree balanced exactly where it fits.** -/
theorem insert_balanced_iff (y : Kv) {t : BinaryTree Kv} (balanced : AllBalanced t) :
    AllBalanced (Lib.SearchTree.insert Kv.key weight y t) ↔ InsertFits y.key t := by
  rcases insert_balanced_or_stuck y balanced with ⟨fits, whole⟩ | ⟨unfit, stuck⟩
  · exact iff_of_true whole fits
  · exact iff_of_false stuck.brokenBelow.not_balanced unfit

/-! ## Deletion -/

/-- `deleteMin` takes one node, -/
theorem numNodes_deleteMin (x : Kv) (l r : BinaryTree Kv) :
    (Lib.SearchTree.deleteMin weight x l r).2.numNodes = l.numNodes + r.numNodes := by
  have lengths := congrArg List.length (inorder_deleteMin (w := weight) x l r)
  simp only [List.length_cons, List.length_append, inorder_length] at lengths
  omega

/-- and a join takes none. -/
theorem numNodes_join (l r : BinaryTree Kv) : (join weight l r).numNodes = l.numNodes + r.numNodes := by
  rw [← inorder_length, inorder_join]
  simp

/-- A key that is there takes one node away. -/
theorem numNodes_delete (key : Nat) (t : BinaryTree Kv) :
    (Lib.SearchTree.delete Kv.key weight key t).numNodes = t.numNodes - holding key t ∧ holding key t ≤ t.numNodes ∧ holding key t ≤ 1 := by
  induction t with
  | nil => exact ⟨rfl, Nat.le_refl _, Nat.zero_le _⟩
  | node x l r ihl ihr =>
    obtain ⟨sizeL, someL, oneL⟩ := ihl
    obtain ⟨sizeR, someR, oneR⟩ := ihr
    rcases Nat.lt_trichotomy key x.key with less | same | greater
    · have found : holding key (node x l r) = holding key l := by
        simp only [holding, search, if_neg (Nat.ne_of_gt less), if_pos less]
      rw [Lib.SearchTree.delete, if_pos less, numNodes_balance, found, sizeL, numNodes]
      omega
    · subst same
      have found : holding x.key (node x l r) = 1 := by
        simp only [holding, search, if_pos, Option.isSome_some]
      rw [Lib.SearchTree.delete, if_neg (Nat.lt_irrefl _), if_neg (Nat.lt_irrefl _), numNodes_join, found, numNodes]
      omega
    · have found : holding key (node x l r) = holding key r := by
        simp only [holding, search, if_neg (Nat.ne_of_lt greater), if_neg (Nat.lt_asymm greater)]
      rw [Lib.SearchTree.delete, if_neg (Nat.lt_asymm greater), if_pos greater, numNodes_balance, found, sizeR, numNodes]
      omega

/-- On the side that has lost a node; `l` is what is left of it. -/
theorem balance_balanced_iff_left {n : Nat} {x : Kv} {l r : BinaryTree Kv} {fits : Prop} (inner : AllBalanced l ↔ fits)
    (right : AllBalanced r) (before : BalancedSizes n r.numNodes) (shrunk : l.numNodes = n ∨ l.numNodes + 1 = n) :
    AllBalanced (balance weight x l r) ↔ fits ∧ (outline r).mirror.Fits l.numNodes := by
  have light : ¬ TooHeavy l.numNodes r.numNodes := by
    simp only [BalancedSizes, TooHeavy, weight] at *
    omega
  constructor
  · intro whole
    have left := whole.of_balance_left light
    have both := (balance_balanced_iff left right (.left before (by omega))).mp whole
    exact ⟨inner.mp left, both.2⟩
  · rintro ⟨fit, cut⟩
    exact (balance_balanced_iff (inner.mpr fit) right (.left before (by omega))).mpr ⟨fits_light light, cut⟩

/-- Balancing on the way up from the right: what is below must be balanced, and what is here must fit. -/
theorem balance_balanced_iff_right {n : Nat} {x : Kv} {l r : BinaryTree Kv} {fits : Prop} (left : AllBalanced l)
    (inner : AllBalanced r ↔ fits) (before : BalancedSizes l.numNodes n) (shrunk : r.numNodes = n ∨ r.numNodes + 1 = n) :
    AllBalanced (balance weight x l r) ↔ fits ∧ (outline l).Fits r.numNodes := by
  have turned := balance_balanced_iff_left (x := x) (l := mirror r) (r := mirror l) ((allBalanced_mirror r).trans inner)
    (by simpa using left) (by simpa using balancedSizes_comm.mp before) (by simpa using shrunk)
  rwa [← mirror_balance_weight, allBalanced_mirror, outline_mirror, mirror_mirror_outline, numNodes_mirror] at turned

/-- So for `deleteMin`, -/
theorem deleteMin_balanced_iff {x : Kv} {l r : BinaryTree Kv} (balanced : AllBalanced (node x l r)) :
    AllBalanced (Lib.SearchTree.deleteMin weight x l r).2 ↔ DeleteMinFits l r := by
  induction l generalizing x r with
  | nil => exact iff_of_true balanced.2.2 trivial
  | node y ll lr ihl _ =>
    obtain ⟨here, left, right⟩ := balanced
    have size := numNodes_deleteMin y ll lr
    have whole := balance_balanced_iff_left (x := x) (ihl left) right here (Or.inr (congrArg (· + 1) size))
    rwa [size] at whole

/-- for a join, -/
theorem join_balanced_iff {x : Kv} {l r : BinaryTree Kv} (balanced : AllBalanced (node x l r)) :
    AllBalanced (join weight l r) ↔ JoinFits l r := by
  obtain ⟨here, left, right⟩ := balanced
  cases l with
  | nil => exact iff_of_true right trivial
  | node z ll lr =>
    cases r with
    | nil => exact iff_of_true left trivial
    | node y rl rr =>
      have size := numNodes_deleteMin y rl rr
      have whole := balance_balanced_iff_right (x := (Lib.SearchTree.deleteMin weight y rl rr).1) left
        (deleteMin_balanced_iff right) here (Or.inr (congrArg (· + 1) size))
      rwa [size] at whole

/-- **and for a deletion.** -/
theorem delete_balanced_iff (key : Nat) {t : BinaryTree Kv} (balanced : AllBalanced t) :
    AllBalanced (Lib.SearchTree.delete Kv.key weight key t) ↔ DeleteFits key t := by
  induction t with
  | nil => exact Iff.rfl
  | node x l r ihl ihr =>
    obtain ⟨here, left, right⟩ := balanced
    simp only [DeleteFits, Lib.SearchTree.delete]
    split_ifs with less greater
    · obtain ⟨size, some, one⟩ := numNodes_delete key l
      have whole := balance_balanced_iff_left (x := x) (ihl left) right here (by omega)
      rwa [size] at whole
    · obtain ⟨size, some, one⟩ := numNodes_delete key r
      have whole := balance_balanced_iff_right (x := x) left (ihr right) here (by omega)
      rwa [size] at whole
    · exact join_balanced_iff (x := x) ⟨here, left, right⟩

/-- **An operation keeps the tree balanced exactly when it cuts no inner subtree badly.** -/
theorem Op.balanced_iff {t : BinaryTree Kv} (balanced : AllBalanced t) (op : Op) : AllBalanced (op.onTree t) ↔ op.Fits t := by
  cases op with
  | insert key value => exact insert_balanced_iff ⟨key, value⟩ balanced
  | delete key => exact delete_balanced_iff key balanced
  | find key => exact iff_of_true balanced trivial

/-! ## Runs -/

/-- The runs from the empty tree in which every operation fits the tree it finds. -/
inductive ReachedFitting (fuel : Nat) : List Kv → Mem → Prop where
  | empty {h : Heap} : ReachedFitting fuel [] ⟨h, none⟩
  | op {M : List Kv} {m : Mem} {cells : Nat → Addr} {op : Op} {res : Res} {es : List Event}
      (before : ReachedFitting fuel M m) (fresh : Fresh cells m) (run : op.run fuel cells m = some (res, es))
      (small : (op.ref M).length < maxNodes) (fits : ∀ t, Shape m.heap t → ptr t = m.root → op.Fits (erase t)) :
      ReachedFitting fuel (op.ref M) (m.applyAll es)

section Runs
variable {fuel : Nat} {M : List Kv} {m : Mem} {t : Tree}

/-- Trees that are reached by operations that fit are reached. -/
theorem ReachedFitting.reached (reached : ReachedFitting fuel M m) : Reached fuel M m := by
  induction reached with
  | empty => exact .empty
  | op _ fresh run small _ ih => exact .op ih fresh run small

/-- An operation on a tree in memory keeps it balanced exactly when it fits. -/
theorem Represents.balanced_step {cells : Nat → Addr} {op : Op} {res : Res} {es : List Event} (rep : Represents m t M)
    (balanced : AllBalanced (erase t)) (deep : maxNodes ≤ fuel) (bound : M.length < maxNodes) (fresh : Fresh cells m)
    (run : op.run fuel cells m = some (res, es)) :
    ∃ t', Represents (m.applyAll es) t' (op.ref M) ∧ (AllBalanced (erase t') ↔ op.Fits (erase t)) := by
  obtain ⟨es', t', run', rep', _, erased⟩ := rep.step deep bound fresh op
  obtain ⟨_, rfl⟩ := Prod.mk.inj (Option.some.inj (run.symm.trans run'))
  refine ⟨t', rep', ?_⟩
  rw [erased]
  exact op.balanced_iff balanced

/-- They are balanced. -/
theorem ReachedFitting.balanced (deep : maxNodes ≤ fuel) (reached : ReachedFitting fuel M m) :
    ∃ t, Represents m t M ∧ AllBalanced (erase t) := by
  induction reached with
  | empty => exact ⟨nil, ⟨trivial, rfl, List.nodup_nil, List.Pairwise.nil, List.Perm.nil⟩, trivial⟩
  | op before fresh run small fits ih =>
    obtain ⟨t, rep, balanced⟩ := ih
    obtain ⟨t', rep', whole⟩ := rep.balanced_step balanced deep (before.reached.represents deep).1 fresh run
    exact ⟨t', rep', whole.mpr (fits t rep.holds.shape rep.root)⟩

/-- **Runs whose operations fit keep the tree balanced**, and the next operation keeps it so exactly when it fits. -/
theorem treeBB_balanced (deep : maxNodes ≤ fuel) (reached : ReachedFitting fuel M m) :
    Reached fuel M m ∧ ∃ t, Represents m t M ∧ AllBalanced (erase t) ∧
      ∀ (cells : Nat → Addr) (op : Op) (res : Res) (es : List Event), Fresh cells m → op.run fuel cells m = some (res, es) →
        ∃ t', Represents (m.applyAll es) t' (op.ref M) ∧ (AllBalanced (erase t') ↔ op.Fits (erase t)) := by
  obtain ⟨t, rep, balanced⟩ := reached.balanced deep
  exact ⟨reached.reached, t, rep, balanced, fun cells op res es fresh run =>
    rep.balanced_step balanced deep (reached.reached.represents deep).1 fresh run⟩

/-- There is a key above any given ones. -/
theorem exists_above (xs : List Nat) : ∃ n, ∀ a ∈ xs, a < n := by
  induction xs with
  | nil => exact ⟨0, fun a member => absurd member List.not_mem_nil⟩
  | cons x xs ih =>
    obtain ⟨n, below⟩ := ih
    refine ⟨max n (x + 1), fun a member => ?_⟩
    rcases List.mem_cons.mp member with rfl | later
    · omega
    · have bound := below a later
      omega

/-- Any operation can follow, on cells above those of the tree. -/
theorem Represents.next (deep : maxNodes ≤ fuel) (rep : Represents m t M) (bound : M.length < maxNodes) (op : Op) :
    ∃ cells es t', Fresh cells m ∧ op.run fuel cells m = some (op.answer M, es) ∧
      Represents (m.applyAll es) t' (op.ref M) ∧ erase t' = op.onTree (erase t) := by
  obtain ⟨n, below⟩ := exists_above (addrs t)
  have fresh : Fresh (n + ·) m := fresh_above rep.holds.shape rep.root below
  obtain ⟨es, t', run, rep', _, erased⟩ := rep.step deep bound fresh op
  exact ⟨_, es, t', fresh, run, rep', erased⟩

end Runs

/-! ## Insertions one after the other -/

/-- A key, and the value that is the same number. -/
def insertKey (k : Nat) : Op := .insert k k

instance (key : Nat) : (t : BinaryTree Kv) → Decidable (InsertFits key t)
  | nil => isTrue trivial
  | node x l r =>
    have := instDecidableInsertFits key l
    have := instDecidableInsertFits key r
    inferInstanceAs (Decidable (if key < x.key then InsertFits key l ∧ (insertOutline key l).Fits r.numNodes
      else if x.key < key then InsertFits key r ∧ (insertOutline key r).mirror.Fits l.numNodes else True))

/-- Every key fits the tree that the ones before it have made. -/
def KeysFit : BinaryTree Kv → List Nat → Prop
  | _, [] => True
  | t, k :: ks => InsertFits k t ∧ KeysFit ((insertKey k).onTree t) ks

instance : (t : BinaryTree Kv) → (ks : List Nat) → Decidable (KeysFit t ks)
  | _, [] => isTrue trivial
  | t, k :: ks =>
    have := instDecidableKeysFit ((insertKey k).onTree t) ks
    inferInstanceAs (Decidable (_ ∧ _))

/-- Inserting keys that fit, one after another, reaches a tree in this way. -/
theorem reachedFitting_keys (keys : List Nat) {M : List Kv} {m : Mem} {t : Tree} (reached : ReachedFitting maxNodes M m)
    (rep : Represents m t M) (small : M.length + keys.length < maxNodes) (fits : KeysFit (erase t) keys) :
    ∃ m' t', ReachedFitting maxNodes (keys.foldl (fun M k => (insertKey k).ref M) M) m' ∧
      Represents m' t' (keys.foldl (fun M k => (insertKey k).ref M) M) ∧
      erase t' = keys.foldl (fun t k => (insertKey k).onTree t) (erase t) := by
  induction keys generalizing M m t with
  | nil => exact ⟨m, t, reached, rep, rfl⟩
  | cons k keys ih =>
    have grown := (insertKey k).ref_length_le M
    rw [List.length_cons] at small
    obtain ⟨cells, es, t', fresh, run, rep', erased⟩ := rep.next (Nat.le_refl _) (by omega) (insertKey k)
    have here : ∀ s, Shape m.heap s → ptr s = m.root → (insertKey k).Fits (erase s) := by
      intro s shape root
      rw [shape.unique rep.holds.shape (root.trans rep.root.symm)]
      exact fits.1
    obtain ⟨m'', t'', reached'', rep'', erased'⟩ :=
      ih (.op reached fresh run (by omega) here) rep' (by omega) (by rw [erased]; exact fits.2)
    exact ⟨m'', t'', reached'', rep'', by rw [erased', erased]; rfl⟩

/-- The keys 1, 3 and 2 take a double rotation that fits, and 1 can be deleted then. -/
theorem treeBB_balanced_double_rotation :
    ∃ m t, Represents m t [⟨2, 2⟩, ⟨3, 3⟩, ⟨1, 1⟩] ∧ AllBalanced (erase t) ∧
      ∃ m' t', Represents m' t' [⟨2, 2⟩, ⟨3, 3⟩] ∧ AllBalanced (erase t') := by
  obtain ⟨m, t, reached, rep, erased⟩ := reachedFitting_keys [1, 3, 2] (.empty (h := emptyTree.heap)) (t := nil)
    ⟨trivial, rfl, List.nodup_nil, List.Pairwise.nil, List.Perm.nil⟩ (by decide) (by decide)
  obtain ⟨_, t₁, rep₁, balanced, next⟩ := treeBB_balanced (Nat.le_refl _) reached
  have same : t₁ = t := rep₁.holds.shape.unique rep.holds.shape (rep₁.root.trans rep.root.symm)
  subst same
  obtain ⟨cells, es, _, fresh, run, _⟩ := rep₁.next (Nat.le_refl _) (by decide) (.delete 1)
  obtain ⟨t', rep', whole⟩ := next cells (.delete 1) _ es fresh run
  refine ⟨m, t₁, rep₁, balanced, _, t', rep', whole.mpr ?_⟩
  rw [erased]
  exact ⟨trivial, trivial⟩

/-- After the keys 10, 5, 30, 20, 40, 50 and 15 have been inserted, the node with key 30 has an empty
left subtree and two nodes in the right one: the last insertion took a double rotation at 10. -/
theorem treeBB_unbalanced_after_inserts :
    let M : List Kv := [⟨15, 15⟩, ⟨50, 50⟩, ⟨40, 40⟩, ⟨20, 20⟩, ⟨30, 30⟩, ⟨5, 5⟩, ⟨10, 10⟩]
    ∃ m t, Reached maxNodes M m ∧ Represents m t M ∧ ¬ AllBalanced (erase t) := by
  intro M
  obtain ⟨m, t, reached, rep, erased⟩ := reachedFitting_keys [10, 5, 30, 20, 40, 50] (.empty (h := emptyTree.heap)) (t := nil)
    ⟨trivial, rfl, List.nodup_nil, List.Pairwise.nil, List.Perm.nil⟩ (by decide) (by decide)
  obtain ⟨cells, es, t', fresh, run, rep', erased'⟩ := rep.next (Nat.le_refl _) (by decide) (insertKey 15)
  refine ⟨_, t', .op reached.reached fresh run (by decide), rep', ?_⟩
  rw [erased', erased]
  decide

end BiProject.RbTree
