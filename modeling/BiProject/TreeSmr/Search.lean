import BiProject.RbTree.Readers

/-!
# `cb_find`, load by load

Under `RBTREE_BI` a search reads each pointer with `bi_dereference_pointer_lazy`: it loads the pointer, looks at the header in front of
what the pointer leads to, and loads it once more if it is NULL or the header says `SLAB_FREE`. Then the debugging block of `TreeBB_Find`
reads the key twice and stops if it has changed, and `cb_find` asserts that the value it has found is the key.

On the node of the server such a search is one of those that load each pointer once (`RStep`). Which of its two loads of a pointer
counts is known only after the header: until then the search may be either, and it is shown to be both.
-/

namespace BiProject.TreeSmr
set_option autoImplicit false
open BiProject.RbTree

/-- `h->type` of a header whose cell was passed to `bi_smr_free`. -/
def slabFree : Nat := 1

/-- What `bi_dereference_pointer_lazy` is called with: `tree->root`, or a pointer of a node. -/
inductive Loc where
  | root
  | child (d : Side) (a : Addr)
deriving DecidableEq, Repr

/-- The pointer that is there. -/
def Loc.load (m : Mem) : Loc → Option Addr
  | .root => m.root
  | .child d a => (m.heap a).child d

/-- Where a search is between its `bi_enter` and its `bi_exit`. -/
inductive Place where
  -- `bi_dereference_pointer_lazy`: `__p` is loaded, its header read, `__p` loaded again after the flush, and its header read again
  | load (l : Loc)
  | check (l : Loc) (p : Addr)
  | reload (l : Loc)
  | recheck (p : Addr)
  -- `TreeBB_Find`: the condition of the loop, `t2` with `t1` loaded, and the two comparisons
  | loop (node : Option Addr)
  | dbg (node : Addr) (t1 : Nat)
  | equal (node : Addr)
  | greater (node : Addr)
  -- `cb_find`: the assertion, and what comes after it
  | ret (node : Addr)
  | done (r : Option Addr)
  -- `assert(0)` of the debugging block, and the assertion of `cb_find`
  | changed (node : Addr)
  | unequal (node : Addr)
deriving DecidableEq, Repr

/-- One load of the search for `needle`, from a memory and the headers' types. -/
def Place.next (needle : Nat) (m : Mem) (type : Addr → Nat) : Place → Option Place
  | .load l => match l.load m with
    | none => some (.reload l)
    | some p => some (.check l p)
  | .check l p => if type p = slabFree then some (.reload l) else some (.loop (some p))
  | .reload l => match l.load m with
    | none => some (.loop none)
    | some p => some (.recheck p)
  -- the second reading of the header decides about a flush, and not about the pointer
  | .recheck p => some (.loop (some p))
  | .loop none => some (.done none)
  | .loop (some a) => some (.dbg a (m.heap a).kv.key)
  | .dbg a t1 => if t1 ≠ (m.heap a).kv.key then some (.changed a) else some (.equal a)
  | .equal a => if (m.heap a).kv.key = needle then some (.ret a) else some (.greater a)
  | .greater a => if (m.heap a).kv.key > needle then some (.load (.child .left a)) else some (.load (.child .right a))
  | .ret a => if (m.heap a).kv.value = needle then some (.done (some a)) else some (.unequal a)
  | .done _ | .changed _ | .unequal _ => none

/-- The search runs on alone. -/
def Goes (needle : Nat) (m : Mem) (type : Addr → Nat) (p p' : Place) : Prop := p.next needle m type = some p'

/-- The nodes that a search has a pointer to. -/
def Place.nodes : Place → List Addr
  | .load .root | .reload .root => []
  | .load (.child _ a) | .reload (.child _ a) => [a]
  | .check .root p => [p]
  | .check (.child _ a) p => [a, p]
  | .recheck a | .dbg a _ | .equal a | .greater a | .ret a | .changed a | .unequal a => [a]
  | .loop r | .done r => r.toList

/-! ## One load a pointer -/

section
variable {k : Nat} {m m' : Mem} {type : Addr → Nat} {R R' : Find → Prop} {l : Loc} {p p' : Place}

/-- Before the load of a pointer, `R` being what holds of the searches that load each pointer once. -/
def Before (k : Nat) (m : Mem) (R : Find → Prop) : Loc → Prop
  | .root => R .called
  | .child .left a => R (.at (some a)) ∧ k < (m.heap a).kv.key
  | .child .right a => R (.at (some a)) ∧ (m.heap a).kv.key < k

/-- The searches that load each pointer once, and are where this one is. -/
def Tracks (k : Nat) (m : Mem) (R : Find → Prop) : Place → Prop
  | .load l | .reload l => Before k m R l
  -- the load that was made may count, or the one to come
  | .check l p => Before k m R l ∧ R (.at (some p))
  | .recheck p => R (.at (some p))
  | .loop node => R (.at node)
  | .dbg a t1 => R (.at (some a)) ∧ t1 = (m.heap a).kv.key
  | .equal a => R (.at (some a))
  | .greater a => R (.at (some a)) ∧ (m.heap a).kv.key ≠ k
  | .ret a => R (.done (some a))
  | .done none => R (.done none)
  | .done (some a) => R (.done (some a)) ∧ (m.heap a).kv.value = k
  | .changed _ => False
  | .unequal a => R (.done (some a)) ∧ (m.heap a).kv.value ≠ k

/-- Other memory with the same pairs in the nodes the search holds. -/
theorem Before.mono (before : Before k m R l) (more : ∀ f, R f → R' f)
    (same : ∀ a, R (.at (some a)) → (m'.heap a).kv = (m.heap a).kv) : Before k m' R' l := by
  cases l with
  | root => exact more _ before
  | child d a =>
    cases d with
    | left => exact ⟨more _ before.1, by rw [same a before.1]; exact before.2⟩
    | right => exact ⟨more _ before.1, by rw [same a before.1]; exact before.2⟩

/-- Other searches, and other memory with the same pairs in the nodes that count. -/
theorem Tracks.mono (tracks : Tracks k m R p) (more : ∀ f, R f → R' f)
    (same : ∀ a, R (.at (some a)) ∨ R (.done (some a)) → (m'.heap a).kv = (m.heap a).kv) : Tracks k m' R' p := by
  have held : ∀ a, R (.at (some a)) → (m'.heap a).kv = (m.heap a).kv := fun a holds => same a (Or.inl holds)
  cases p with
  | load l => exact Before.mono tracks more held
  | reload l => exact Before.mono tracks more held
  | check l a => exact ⟨tracks.1.mono more held, more _ tracks.2⟩
  | recheck a => exact more _ tracks
  | loop node => exact more _ tracks
  | dbg a t1 => exact ⟨more _ tracks.1, by rw [held a tracks.1]; exact tracks.2⟩
  | equal a => exact more _ tracks
  | greater a => exact ⟨more _ tracks.1, by rw [held a tracks.1]; exact tracks.2⟩
  | ret a => exact more _ tracks
  | done r =>
    cases r with
    | none => exact more _ tracks
    | some a => exact ⟨more _ tracks.1, by rw [same a (Or.inr tracks.1)]; exact tracks.2⟩
  | changed a => exact tracks
  | unequal a => exact ⟨more _ tracks.1, by rw [same a (Or.inr tracks.1)]; exact tracks.2⟩

section
variable (closed : ∀ f f', R f → RStep k m f f' → R f')
include closed

/-- The pointer as it is now. -/
theorem Before.load (before : Before k m R l) : R (.at (l.load m)) := by
  cases l with
  | root => exact closed _ _ before .root
  | child d a =>
    cases d with
    | left => exact closed _ _ before.1 (.left before.2)
    | right => exact closed _ _ before.1 (.right before.2)

/-- **A load is one of those that load each pointer once, or none.** -/
theorem Tracks.next (tracks : Tracks k m R p) (goes : Goes k m type p p') : Tracks k m R p' := by
  cases p with
  | load l =>
    have loaded := Before.load closed tracks
    simp only [Goes, Place.next] at goes
    split at goes
    · obtain rfl := Option.some.inj goes
      exact tracks
    · rename_i pointer
      obtain rfl := Option.some.inj goes
      rw [pointer] at loaded
      exact ⟨tracks, loaded⟩
  | check l a =>
    simp only [Goes, Place.next] at goes
    split_ifs at goes
    · obtain rfl := Option.some.inj goes
      exact tracks.1
    · obtain rfl := Option.some.inj goes
      exact tracks.2
  | reload l =>
    have loaded := Before.load closed tracks
    simp only [Goes, Place.next] at goes
    split at goes
    · rename_i pointer
      obtain rfl := Option.some.inj goes
      rw [pointer] at loaded
      exact loaded
    · rename_i pointer
      obtain rfl := Option.some.inj goes
      rw [pointer] at loaded
      exact loaded
  | recheck a =>
    obtain rfl := Option.some.inj goes
    exact tracks
  | loop node =>
    cases node with
    | none =>
      obtain rfl := Option.some.inj goes
      exact closed _ _ tracks .missing
    | some a =>
      obtain rfl := Option.some.inj goes
      exact ⟨tracks, rfl⟩
  | dbg a t1 =>
    simp only [Goes, Place.next] at goes
    rw [if_neg (not_not.mpr tracks.2)] at goes
    obtain rfl := Option.some.inj goes
    exact tracks.1
  | equal a =>
    simp only [Goes, Place.next] at goes
    split_ifs at goes with isKey
    · obtain rfl := Option.some.inj goes
      exact closed _ _ tracks (.found isKey)
    · obtain rfl := Option.some.inj goes
      exact ⟨tracks, isKey⟩
  | greater a =>
    simp only [Goes, Place.next] at goes
    split_ifs at goes with isGreater
    · obtain rfl := Option.some.inj goes
      exact ⟨tracks.1, isGreater⟩
    · obtain rfl := Option.some.inj goes
      exact ⟨tracks.1, Nat.lt_of_le_of_ne (Nat.not_lt.mp isGreater) tracks.2⟩
  | ret a =>
    simp only [Goes, Place.next] at goes
    split_ifs at goes with isNeedle
    · obtain rfl := Option.some.inj goes
      exact ⟨tracks, isNeedle⟩
    · obtain rfl := Option.some.inj goes
      exact ⟨tracks, isNeedle⟩
  | done r => cases goes
  | changed a => cases goes
  | unequal a => cases goes

end

/-- A node that the search holds is held by one that loads each pointer once. -/
theorem Tracks.nodes (tracks : Tracks k m R p) {a : Addr} (member : a ∈ p.nodes) : R (.at (some a)) ∨ R (.done (some a)) := by
  have before : ∀ d b, Before k m R (.child d b) → R (.at (some b)) := by
    intro d b before
    cases d with
    | left => exact before.1
    | right => exact before.1
  cases p with
  | load l | reload l =>
    cases l with
    | root => cases member
    | child d b =>
      obtain rfl := List.mem_singleton.mp member
      exact Or.inl (before d a tracks)
  | check l b =>
    cases l with
    | root =>
      obtain rfl := List.mem_singleton.mp member
      exact Or.inl tracks.2
    | child d c =>
      rcases List.mem_cons.mp member with rfl | later
      · exact Or.inl (before d a tracks.1)
      · obtain rfl := List.mem_singleton.mp later
        exact Or.inl tracks.2
  | loop node =>
    obtain rfl := Option.mem_toList.mp member
    exact Or.inl tracks
  | done r =>
    obtain rfl := Option.mem_toList.mp member
    exact Or.inr tracks.1
  | changed b => exact tracks.elim
  | recheck b | equal b =>
    obtain rfl := List.mem_singleton.mp member
    exact Or.inl tracks
  | dbg b t1 | greater b =>
    obtain rfl := List.mem_singleton.mp member
    exact Or.inl tracks.1
  | ret b =>
    obtain rfl := List.mem_singleton.mp member
    exact Or.inr tracks
  | unequal b =>
    obtain rfl := List.mem_singleton.mp member
    exact Or.inr tracks.1

/-! ## A search that runs on alone -/

/-- The second load of a pointer. -/
theorem goes_reload (l : Loc) : Relation.ReflTransGen (Goes k m type) (.reload l) (.loop (l.load m)) := by
  cases pointer : l.load m with
  | none => exact .single (by simp [Goes, Place.next, pointer])
  | some p =>
    have again : Goes k m type (.reload l) (.recheck p) := by simp [Goes, Place.next, pointer]
    exact .head again (.single rfl)

/-- `bi_dereference_pointer_lazy` in memory that does not change. -/
theorem goes_load (l : Loc) : Relation.ReflTransGen (Goes k m type) (.load l) (.loop (l.load m)) := by
  cases pointer : l.load m with
  | none =>
    have missing : Goes k m type (.load l) (.reload l) := by simp [Goes, Place.next, pointer]
    exact .head missing (pointer ▸ goes_reload l)
  | some p =>
    have checks : Goes k m type (.load l) (.check l p) := by simp [Goes, Place.next, pointer]
    apply Relation.ReflTransGen.head checks
    by_cases isFree : type p = slabFree
    · have again : Goes k m type (.check l p) (.reload l) := by simp [Goes, Place.next, isFree]
      exact .head again (pointer ▸ goes_reload l)
    · exact .single (by simp [Goes, Place.next, isFree])

/-- The search has returned, or its assertion has failed. -/
def Place.Over (p : Place) : Prop := (∃ r, p = .done r) ∨ ∃ a, p = .unequal a

/-- A search that has found its key ends. -/
theorem goes_ret (a : Addr) : ∃ e : Place, e.Over ∧ Relation.ReflTransGen (Goes k m type) (.ret a) e := by
  by_cases isNeedle : (m.heap a).kv.value = k
  · exact ⟨.done (some a), Or.inl ⟨_, rfl⟩, .single (by simp [Goes, Place.next, isNeedle])⟩
  · exact ⟨.unequal a, Or.inr ⟨_, rfl⟩, .single (by simp [Goes, Place.next, isNeedle])⟩

/-- From the head of the loop the search ends where a search that loads each pointer once ends. -/
theorem goes_over {node r : Option Addr} (returns : Relation.ReflTransGen (RStep k m) (.at node) (.done r)) :
    ∃ e : Place, e.Over ∧ Relation.ReflTransGen (Goes k m type) (.loop node) e := by
  generalize start : Find.at node = f at returns
  induction returns using Relation.ReflTransGen.head_induction_on generalizing node with
  | refl => cases start
  | head step rest ih =>
    subst start
    have block : ∀ a, Relation.ReflTransGen (Goes k m type) (.loop (some a)) (.equal a) := by
      intro a
      have first : Goes k m type (.loop (some a)) (.dbg a (m.heap a).kv.key) := rfl
      have second : Goes k m type (.dbg a (m.heap a).kv.key) (.equal a) := by simp [Goes, Place.next]
      exact .head first (.single second)
    cases step with
    | missing => exact ⟨.done none, Or.inl ⟨_, rfl⟩, .single rfl⟩
    | @found a isKey =>
      obtain ⟨e, ended, goes⟩ : ∃ e : Place, e.Over ∧ Relation.ReflTransGen (Goes k m type) (.ret a) e := goes_ret a
      have found : Goes k m type (.equal a) (.ret a) := by simp [Goes, Place.next, isKey]
      exact ⟨e, ended, (block a).trans (.head found goes)⟩
    | @left a greater =>
      obtain ⟨e, ended, goes⟩ := ih rfl
      have differs : Goes k m type (.equal a) (.greater a) := by simp [Goes, Place.next, Nat.ne_of_gt greater]
      have turns : Goes k m type (.greater a) (.load (.child .left a)) := by simp [Goes, Place.next, greater]
      exact ⟨e, ended, (block a).trans (.head differs (.head turns ((goes_load _).trans goes)))⟩
    | @right a less =>
      obtain ⟨e, ended, goes⟩ := ih rfl
      have differs : Goes k m type (.equal a) (.greater a) := by simp [Goes, Place.next, Nat.ne_of_lt less]
      have turns : Goes k m type (.greater a) (.load (.child .right a)) := by simp [Goes, Place.next, Nat.not_lt.mpr (Nat.le_of_lt less)]
      exact ⟨e, ended, (block a).trans (.head differs (.head turns ((goes_load _).trans goes)))⟩

/-- A search makes one step only, so that what it comes to is what it comes to after the step. -/
theorem goes_tail {q e : Place} (step : Goes k m type p q) (ended : e.Over) (goes : Relation.ReflTransGen (Goes k m type) p e) :
    Relation.ReflTransGen (Goes k m type) q e := by
  cases goes using Relation.ReflTransGen.head_induction_on with
  | refl =>
    rcases ended with ⟨r, rfl⟩ | ⟨a, rfl⟩
    · cases step
    · cases step
  | head first rest =>
    obtain rfl := Option.some.inj (first.symm.trans step)
    exact rest

/-- **A search that runs on alone ends.** -/
theorem Tracks.over (tracks : Tracks k m R p) (closed : ∀ f f', R f → RStep k m f f' → R f')
    (returns : ∀ f, R f → ∃ r, Relation.ReflTransGen (RStep k m) f (.done r)) :
    ∃ e : Place, e.Over ∧ Relation.ReflTransGen (Goes k m type) p e := by
  have loop : ∀ node, R (.at node) → ∃ e : Place, e.Over ∧ Relation.ReflTransGen (Goes k m type) (.loop node) e := by
    intro node holds
    obtain ⟨r, run⟩ := returns _ holds
    exact goes_over run
  have equal : ∀ a, R (.at (some a)) → ∃ e : Place, e.Over ∧ Relation.ReflTransGen (Goes k m type) (.equal a) e := by
    intro a holds
    obtain ⟨e, ended, goes⟩ := loop _ holds
    have read : Goes k m type (.loop (some a)) (.dbg a (m.heap a).kv.key) := rfl
    have same : Goes k m type (.dbg a (m.heap a).kv.key) (.equal a) := by simp [Goes, Place.next]
    exact ⟨e, ended, goes_tail same ended (goes_tail read ended goes)⟩
  cases p with
  | load l =>
    obtain ⟨e, ended, goes⟩ := loop _ (Before.load closed tracks)
    exact ⟨e, ended, (goes_load l).trans goes⟩
  | reload l =>
    obtain ⟨e, ended, goes⟩ := loop _ (Before.load closed tracks)
    exact ⟨e, ended, (goes_reload l).trans goes⟩
  | check l a =>
    by_cases isFree : type a = slabFree
    · obtain ⟨e, ended, goes⟩ := loop _ (tracks.1.load closed)
      have again : Goes k m type (.check l a) (.reload l) := by simp [Goes, Place.next, isFree]
      exact ⟨e, ended, .head again ((goes_reload l).trans goes)⟩
    · obtain ⟨e, ended, goes⟩ := loop _ tracks.2
      have turns : Goes k m type (.check l a) (.loop (some a)) := by simp [Goes, Place.next, isFree]
      exact ⟨e, ended, .head turns goes⟩
  | recheck a =>
    obtain ⟨e, ended, goes⟩ := loop _ tracks
    have turns : Goes k m type (.recheck a) (.loop (some a)) := rfl
    exact ⟨e, ended, .head turns goes⟩
  | loop node => exact loop node tracks
  | dbg a t1 =>
    obtain ⟨e, ended, goes⟩ := equal a tracks.1
    have same : Goes k m type (.dbg a t1) (.equal a) := by simp [Goes, Place.next, tracks.2]
    exact ⟨e, ended, .head same goes⟩
  | equal a => exact equal a tracks
  | greater a =>
    obtain ⟨e, ended, goes⟩ := equal a tracks.1
    have turns : Goes k m type (.equal a) (.greater a) := by simp [Goes, Place.next, tracks.2]
    exact ⟨e, ended, goes_tail turns ended goes⟩
  | ret a => exact goes_ret a
  | done r => exact ⟨_, Or.inl ⟨r, rfl⟩, .refl⟩
  | changed a => exact tracks.elim
  | unequal a => exact ⟨_, Or.inr ⟨a, rfl⟩, .refl⟩

end

end BiProject.TreeSmr
