import BiProject.RbTree.Operations
import Mathlib.Logic.Relation

/-!
# Lock-free readers

One writer runs any sequence of operations, one store at a time; a reader runs `TreeBB_Find` one
pointer load at a time, in any interleaving. No node that the reader may have come across is handed
out again by `TreeBBNewNode` while the search runs.

A reader may hold a node that the writer has taken out of the tree. Such a node is never stored to
again, but the nodes below it may still be in the tree and change. The invariant is about the walk
that a search would take from the node it holds in the memory as it is (`Walk`): it ends, it finds
the key if the key has been bound ever since the search began, and it misses it if the key has been
unbound. A store that swaps one subtree of a tree node for another keeps this, because the key is
either nowhere else in the tree or nowhere in it.
-/

namespace BiProject.RbTree
set_option autoImplicit false
open BiProject.Lib.SearchTree BinaryTree

/-! ## The writer -/

/-- Memory, the stores of the operation in progress that are still to come, and the reference maps
before and after that operation. -/
structure Sys where
  mem : Mem
  pending : List Event
  before : List Kv
  after : List Kv

/-- One step of the writer: it begins an operation on cells that are unused and not in `avoid`, or
performs its next event. -/
inductive WStep (fuel : Nat) (avoid : Set Addr) : Sys → Sys → Prop where
  | begin {m : Mem} {M M' : List Kv} {cells : Nat → Addr} {op : Op} {res : Res} {es : List Event} (fresh : Fresh cells m)
      (unseen : ∀ i, cells i ∉ avoid) (run : op.run fuel cells m = some (res, es))
      (small : (op.ref M').length < maxNodes) : WStep fuel avoid ⟨m, [], M, M'⟩ ⟨m, es, M', op.ref M'⟩
  | store {m : Mem} {e : Event} {es : List Event} {M M' : List Kv} :
      WStep fuel avoid ⟨m, e :: es, M, M'⟩ ⟨m.apply e, es, M, M'⟩

/-- The states that the writer reaches from the empty tree. -/
inductive Written (fuel : Nat) : Sys → Prop where
  | init {h : Heap} : Written fuel ⟨⟨h, none⟩, [], [], []⟩
  | step {σ σ' : Sys} (before : Written fuel σ) (step : WStep fuel ∅ σ σ') : Written fuel σ'

/-- The operation in progress, seen from the tree `t` that is linked in: `V` are the nodes readers may
know, `es` the events up to the store to the root, `c` the contents before the operation and `t'` the
tree it will leave. -/
structure Working (V : Set Addr) (σ : Sys) (t t' : Tree) (F : Set Addr) (c : List Kv) (es : List Event) : Prop where
  pending : σ.pending = es ++ publishRoot σ.mem.root (ptr t')
  shape : Shape σ.mem.heap t
  root : ptr t = σ.mem.root
  nodup : (addrs t).Nodup
  inside : ∀ a ∈ addrs t, a ∈ V
  contents : kvs t = c ∨ kvs t = kvs t'
  evolve : ∃ V' tn, Evolve F c (kvs t') V σ.mem.heap t es V' tn
  holds : Holds (applyAll σ.mem.heap es) t'
  nodup' : (addrs t').Nodup
  ordered : c.Pairwise fun x y => x.key < y.key
  ordered' : Ordered Kv.key (erase t')
  before : c.Perm σ.before
  after : (kvs t').Perm σ.after
  small : σ.after.length < maxNodes

/-- The same events for other readers, who know no more of the cells to come. -/
theorem Evolve.reindex {F : Set Addr} {c c' : List Kv} {V V' W : Set Addr} {h : Heap} {t t' : Tree} {es : List Event}
    (evolve : Evolve F c c' V h t es V' t') (known : ∀ a ∈ W, a ∈ F → a ∈ V) : ∃ W', Evolve F c c' W h t es W' t' := by
  induction evolve generalizing W with
  | done => exact ⟨W, .done⟩
  | @quiet V V' h t t' e es quiet rest ih =>
    obtain ⟨W', rest'⟩ := ih known
    refine ⟨W', .quiet ?_ rest'⟩
    cases e with
    | link d b q => exact ⟨quiet.1, fun member => quiet.2 (known b member quiet.1)⟩
    | kv b x => exact ⟨quiet.1, fun member => quiet.2 (known b member quiet.1)⟩
    | size | alloc | free => trivial
    | root => exact quiet.elim
  | @publish V V' h t t₁ t' v x d es link new nodup contents rest ih =>
    obtain ⟨W', rest'⟩ := ih (W := W ∪ {a | a ∈ addrs t₁}) (by
      rintro a (member | member) inF
      · exact Or.inl (known a member inF)
      · exact Or.inr member)
    exact ⟨W', .publish link new nodup contents rest'⟩

/-- What a step of the writer does to what readers see: nothing to the nodes they know, or it swaps
one subtree of the tree. -/
def Change (V : Set Addr) (h h' : Heap) (t t₁ : Tree) : Prop :=
  (∀ a ∈ V, SameLinks (h' a) (h a)) ∨
    ∃ x d v, Relink x d v t t₁ ∧ Shape h v ∧ (addrs t₁).Nodup ∧ h' = (Event.link d x (ptr v)).apply h

section Writer
variable {fuel : Nat} {V : Set Addr} {σ σ' : Sys} {t t' : Tree} {F : Set Addr} {c : List Kv} {es : List Event}

/-- An operation that has ended leaves a tree for its map. -/
theorem Working.represents (w : Working V σ t t' F c es) (ended : σ.pending = []) : Represents σ.mem t σ.after := by
  have none : es = [] ∧ publishRoot σ.mem.root (ptr t') = [] := List.append_eq_nil_iff.mp (w.pending.symm.trans ended)
  have same : σ.mem.root = ptr t' := by
    by_contra differ
    have published := none.2
    rw [publishRoot, if_pos differ] at published
    cases published
  have holds := w.holds
  rw [none.1] at holds
  have equal : t = t' := w.shape.unique holds.shape (w.root.trans same)
  subst equal
  exact ⟨holds, w.root, w.nodup, w.ordered', w.after⟩

/-- Readers that know fewer nodes. -/
theorem Working.restrict (w : Working V σ t t' F c es) : Working {a | a ∈ addrs t} σ t t' F c es :=
  { w with
    inside := fun a member => member
    evolve := by
      obtain ⟨V', tn, evolve⟩ := w.evolve
      obtain ⟨W', evolve'⟩ := evolve.reindex fun a member _ => w.inside a member
      exact ⟨W', tn, evolve'⟩ }

/-- The writer begins an operation. -/
theorem Represents.begin {m : Mem} {M : List Kv} {cells : Nat → Addr} {op : Op} {res : Res} (deep : maxNodes ≤ fuel)
    (rep : Represents m t M) (inside : ∀ a ∈ addrs t, a ∈ V) (bound : M.length < maxNodes) (fresh : Fresh cells m)
    (unseen : ∀ i, cells i ∉ V) (run : op.run fuel cells m = some (res, es)) (small : (op.ref M).length < maxNodes) :
    ∃ t' F c inner, Working V ⟨m, es, M, op.ref M⟩ t t' F c inner := by
  obtain ⟨es', t', run', rep', operated, _⟩ := rep.step deep bound fresh op
  obtain ⟨_, rfl⟩ := Prod.mk.inj (Option.some.inj (run.symm.trans run'))
  obtain ⟨inner, upd, rfl⟩ := operated.updated
  obtain ⟨V', tn, evolve, _⟩ := upd.visible
  refine ⟨t', Set.range cells, kvs t, inner, ?_⟩
  have ordered : (kvs t).Pairwise fun x y => x.key < y.key := by
    rw [kvs_eq_inorder]
    exact rep.ordered
  obtain ⟨W', evolve'⟩ := evolve.reindex (W := V) (by
    rintro a member ⟨i, rfl⟩
    exact absurd member (unseen i))
  exact ⟨rfl, rep.holds.shape, rep.root, rep.nodup, inside, Or.inl rfl, ⟨W', tn, evolve'⟩, upd.holds, rep'.nodup, ordered,
    rep'.ordered, rep.contents, rep'.contents, small⟩

/-- The writer performs its next event. -/
theorem Working.store {e : Event} {rest : List Event} (w : Working V σ t t' F c es) (next : σ.pending = e :: rest) :
    ∃ t₁ es₁, Change V σ.mem.heap (σ.mem.apply e).heap t t₁ ∧
      Working (V ∪ {a | a ∈ addrs t₁}) ⟨σ.mem.apply e, rest, σ.before, σ.after⟩ t₁ t' F c es₁ := by
  obtain ⟨V', tn, evolve⟩ := w.evolve
  have pending := w.pending
  rw [next] at pending
  cases evolve with
  | done =>
    -- only the store to the root is left
    rw [List.nil_append, publishRoot] at pending
    split_ifs at pending with change
    obtain ⟨rfl, rfl⟩ := List.cons.inj pending
    refine ⟨t', [], Or.inl fun a _ => SameLinks.refl _, ?_⟩
    exact
      { pending := by simp [publishRoot, Mem.apply]
        shape := w.holds.shape
        root := rfl
        nodup := w.nodup'
        inside := fun a member => Or.inr member
        contents := Or.inr rfl
        evolve := ⟨_, _, .done⟩
        holds := w.holds
        nodup' := w.nodup'
        ordered := w.ordered
        ordered' := w.ordered'
        before := w.before
        after := w.after
        small := w.small }
  | @quiet _ _ _ _ _ e' es' quiet evolve =>
    obtain ⟨rfl, rfl⟩ := List.cons.inj pending
    have sameRoot : (σ.mem.apply e).root = σ.mem.root := by cases e <;> first | rfl | exact quiet.elim
    have union : V ∪ {a | a ∈ addrs t} = V := Set.union_eq_left.mpr fun a member => w.inside a member
    refine ⟨t, es', Or.inl fun a member => quiet.sameLinks _ member, ?_⟩
    rw [union]
    exact
      { w with
        pending := by rw [sameRoot]; rfl
        shape := w.shape.frame fun a member => quiet.sameLinks _ (w.inside a member)
        root := w.root.trans sameRoot.symm
        evolve := ⟨_, _, evolve⟩
        holds := w.holds }
  | @publish _ _ _ _ t₁ _ v x d es' link new nodup contents evolve =>
    obtain ⟨rfl, rfl⟩ := List.cons.inj pending
    refine ⟨t₁, es', Or.inr ⟨x, d, v, link, new, nodup, rfl⟩, ?_⟩
    exact
      { w with
        pending := rfl
        shape := link.shape w.shape new nodup
        root := link.ptr_eq.trans w.root
        nodup := nodup
        inside := fun a member => Or.inr member
        contents := contents
        evolve := ⟨_, _, evolve⟩
        holds := w.holds }

/-- **At every moment** the tree under the root has the contents before or after the operation in
progress. -/
theorem Written.working (deep : maxNodes ≤ fuel) (written : Written fuel σ) :
    ∃ V t t' F c es, Working V σ t t' F c es := by
  induction written with
  | init =>
    refine ⟨∅, nil, nil, ∅, [], [], ?_⟩
    exact ⟨rfl, trivial, rfl, List.nodup_nil, fun a member => absurd member List.not_mem_nil, Or.inl rfl, ⟨∅, nil, .done⟩, trivial,
      List.nodup_nil, List.Pairwise.nil, List.Pairwise.nil, List.Perm.nil, List.Perm.nil, (by decide : 0 < maxNodes)⟩
  | step before step ih =>
    obtain ⟨V, t, t', F, c, es, w⟩ := ih
    cases step with
    | begin fresh unseen run small =>
      have rep := w.represents rfl
      obtain ⟨t'', F', c', inner, w'⟩ := rep.begin (V := {a | a ∈ addrs t}) deep (fun a member => member) w.small fresh (by
        intro i member
        exact fresh.unused i ((rep.reach_iff _).mpr member)) run small
      exact ⟨_, t, t'', F', c', inner, w'⟩
    | store =>
      obtain ⟨t₁, es₁, _, w'⟩ := w.store rfl
      exact ⟨_, t₁, t', F, c, es₁, w'⟩

end Writer

/-! ## Walks -/

/-- The walk of a search for `k` from a pointer in memory `h` as it is, and the node it finds. -/
inductive Walk (h : Heap) (k : Nat) : Option Addr → Option Addr → Prop where
  | missing : Walk h k none none
  | found {a : Addr} (isKey : (h a).kv.key = k) : Walk h k (some a) (some a)
  | left {a : Addr} {r : Option Addr} (greater : k < (h a).kv.key) (below : Walk h k (h a).left r) : Walk h k (some a) r
  | right {a : Addr} {r : Option Addr} (less : (h a).kv.key < k) (below : Walk h k (h a).right r) : Walk h k (some a) r

/-- The side the walk takes at a node. -/
def Turns (h : Heap) (k : Nat) (a : Addr) : Side → Prop
  | .left => k < (h a).kv.key
  | .right => (h a).kv.key < k

theorem Walk.turn {h : Heap} {k : Nat} {a : Addr} {d : Side} {r : Option Addr} (turns : Turns h k a d)
    (below : Walk h k ((h a).child d) r) : Walk h k (some a) r := by
  cases d with
  | left => exact .left turns below
  | right => exact .right turns below

theorem Walk.follow {h : Heap} {k : Nat} {a : Addr} {d : Side} {r : Option Addr} (walk : Walk h k (some a) r)
    (turns : Turns h k a d) : Walk h k ((h a).child d) r := by
  cases d with
  | left =>
    cases walk with
    | found isKey => exact absurd isKey (Nat.ne_of_gt turns)
    | left greater below => exact below
    | right less below => exact absurd less (Nat.lt_asymm turns)
  | right =>
    cases walk with
    | found isKey => exact absurd isKey (Nat.ne_of_lt turns)
    | left greater below => exact absurd greater (Nat.lt_asymm turns)
    | right less below => exact below

/-- Every walk into a tree ends, and it finds the key if the tree is ordered and has it. -/
theorem Shape.walk {h : Heap} (k : Nat) {t : Tree} (shape : Shape h t) :
    ∃ r, Walk h k (ptr t) r ∧ (∀ a, r = some a → a ∈ addrs t ∧ (h a).kv ∈ kvs t ∧ (h a).kv.key = k) ∧
      (Ordered Kv.key (erase t) → (∃ x ∈ kvs t, x.key = k) → r ≠ none) := by
  induction t with
  | nil => exact ⟨none, .missing, fun a found => (by cases found), fun _ present => (by simp [kvs] at present)⟩
  | node p l r ihl ihr =>
    obtain ⟨left, right, pair, shapeL, shapeR⟩ := shape
    rcases Nat.lt_trichotomy k p.2.key with less | same | greater
    · obtain ⟨res, walk, found, present⟩ := ihl shapeL
      refine ⟨res, .left (by rw [pair]; exact less) (by rw [left]; exact walk), fun a isRes => ?_, fun ordered bound => ?_⟩
      · obtain ⟨member, inside, isKey⟩ := found a isRes
        exact ⟨by simp [member], by simp [inside], isKey⟩
      · obtain ⟨orderedL, _, _, above⟩ := ordered_node.mp ordered
        obtain ⟨x, member, isKey⟩ := bound
        refine present orderedL ⟨x, ?_, isKey⟩
        simp only [kvs_node, List.mem_append, List.mem_cons] at member
        rcases member with inside | rfl | inside
        · exact inside
        · omega
        · rw [kvs_eq_inorder] at inside
          have later := above x inside
          omega
    · refine ⟨some p.1, .found (by rw [pair]; exact same.symm), fun a isRes => ?_, fun _ _ => by simp⟩
      obtain rfl := Option.some.inj isRes
      exact ⟨by simp, by simp [pair], by rw [pair]; exact same.symm⟩
    · obtain ⟨res, walk, found, present⟩ := ihr shapeR
      refine ⟨res, .right (by rw [pair]; exact greater) (by rw [right]; exact walk), fun a isRes => ?_,
        fun ordered bound => ?_⟩
      · obtain ⟨member, inside, isKey⟩ := found a isRes
        exact ⟨by simp [member], by simp [inside], isKey⟩
      · obtain ⟨_, orderedR, below, _⟩ := ordered_node.mp ordered
        obtain ⟨x, member, isKey⟩ := bound
        refine present orderedR ⟨x, ?_, isKey⟩
        simp only [kvs_node, List.mem_append, List.mem_cons] at member
        rcases member with inside | rfl | inside
        · rw [kvs_eq_inorder] at inside
          have earlier := below x inside
          omega
        · omega
        · exact inside

/-- A walk among nodes that do not change. -/
theorem Walk.frame {h h' : Heap} {k : Nat} {p r : Option Addr} {S : Set Addr} (walk : Walk h k p r)
    (inside : ∀ a, p = some a → a ∈ S) (closed : ∀ a ∈ S, ∀ d b, (h a).child d = some b → b ∈ S)
    (same : ∀ a ∈ S, SameLinks (h' a) (h a)) : Walk h' k p r := by
  induction walk with
  | missing => exact .missing
  | @found a isKey => exact .found (by rw [(same a (inside a rfl)).kv]; exact isKey)
  | @left a r greater below ih =>
    have here := same a (inside a rfl)
    refine .left (by rw [here.kv]; exact greater) ?_
    rw [here.left]
    exact ih fun b next => closed a (inside a rfl) .left b next
  | @right a r less below ih =>
    have here := same a (inside a rfl)
    refine .right (by rw [here.kv]; exact less) ?_
    rw [here.right]
    exact ih fun b next => closed a (inside a rfl) .right b next

/-- A walk after a store to a child pointer: it is the same, or it went through that pointer and goes
where the new one leads. -/
theorem Walk.link {h : Heap} {k x : Nat} {d : Side} {q p r : Option Addr} (walk : Walk h k p r) :
    let h' := (Event.link d x q).apply h
    Walk h' k p r ∨
      (Turns h k x d ∧ Walk h k (some x) r ∧ ∀ r', Walk h' k q r' → Walk h' k p r') := by
  intro h'
  have away : ∀ a, a ≠ x → h' a = h a := fun a other =>
    Event.apply_of_ne h fun same => other (Option.some.inj same).symm
  have keys : ∀ a, (h' a).kv = (h a).kv := by
    intro a
    by_cases here : a = x
    · subst here; exact (child_link h a d q).2.2
    · rw [away a here]
  have step : ∀ (a : Addr) (d' : Side) (r : Option Addr), Turns h k a d' → Walk h k ((h a).child d') r →
      (Walk h' k ((h a).child d') r ∨
        (Turns h k x d ∧ Walk h k (some x) r ∧ ∀ r', Walk h' k q r' → Walk h' k ((h a).child d') r')) →
      Walk h' k (some a) r ∨ (Turns h k x d ∧ Walk h k (some x) r ∧ ∀ r', Walk h' k q r' → Walk h' k (some a) r') := by
    intro a d' r turns below ih
    have turns' : Turns h' k a d' := by cases d' <;> simpa only [Turns, keys] using turns
    by_cases here : a = x ∧ d' = d
    · -- the walk takes the pointer that was stored to
      obtain ⟨rfl, rfl⟩ := here
      refine Or.inr ⟨turns, Walk.turn turns below, fun r' walk' => Walk.turn turns' ?_⟩
      rw [(child_link h a d' q).1]
      exact walk'
    · have same : (h' a).child d' = (h a).child d' := by
        by_cases isNode : a = x
        · subst isNode
          have otherSide : d' = d.other := by
            cases d <;> cases d' <;> simp_all [Side.other]
          rw [otherSide]
          exact (child_link h a d q).2.1
        · rw [away a isNode]
      rw [← same] at ih
      rcases ih with walk' | ⟨turnsX, walkX, follow⟩
      · exact Or.inl (Walk.turn turns' walk')
      · exact Or.inr ⟨turnsX, walkX, fun r' walk' => Walk.turn turns' (follow r' walk')⟩
  induction walk with
  | missing => exact Or.inl .missing
  | found isKey => exact Or.inl (.found (by rw [keys]; exact isKey))
  | @left a r greater below ih => exact step a .left r greater below ih
  | @right a r less below ih => exact step a .right r less below ih

/-- The two trees of a relinking agree outside the subtree that is swapped. -/
theorem Relink.contents {x : Addr} {d : Side} {v t t' : Tree} (link : Relink x d v t t') {h : Heap} (shape : Shape h t) :
    ∃ u A B, kvs t = A ++ kvs u ++ B ∧ kvs t' = A ++ kvs v ++ B ∧ (h x).child d = ptr u ∧ Shape h u := by
  induction link with
  | @here kv u o =>
    obtain ⟨child, _, _, shapeU, _⟩ := shape_withChild.mp shape
    cases d with
    | left => exact ⟨u, [], kv :: kvs o, by simp [withChild, Side.fst, Side.snd], by simp [withChild, Side.fst, Side.snd], child, shapeU⟩
    | right => exact ⟨u, kvs o ++ [kv], [], by simp [withChild, Side.fst, Side.snd], by simp [withChild, Side.fst, Side.snd], child, shapeU⟩
  | @inner d' p w w' o deeper ih =>
    obtain ⟨_, _, _, shapeW, _⟩ := shape_withChild.mp shape
    obtain ⟨u, A, B, old, new, child, shapeU⟩ := ih shapeW
    cases d' with
    | left =>
      exact ⟨u, A, B ++ p.2 :: kvs o, by simp [withChild, Side.fst, Side.snd, old], by simp [withChild, Side.fst, Side.snd, new], child, shapeU⟩
    | right =>
      exact ⟨u, kvs o ++ p.2 :: A, B, by simp [withChild, Side.fst, Side.snd, old], by simp [withChild, Side.fst, Side.snd, new], child, shapeU⟩

/-! ## The reader -/

/-- The states of `TreeBB_Find`: called, holding a pointer, returned. -/
inductive Find where
  | called
  | at (p : Option Addr)
  | done (r : Option Addr)

/-- One pointer load of the search for `k`. -/
inductive RStep (k : Nat) (m : Mem) : Find → Find → Prop where
  | root : RStep k m .called (.at m.root)
  | found {a : Addr} (isKey : (m.heap a).kv.key = k) : RStep k m (.at (some a)) (.done (some a))
  | left {a : Addr} (greater : k < (m.heap a).kv.key) : RStep k m (.at (some a)) (.at (m.heap a).left)
  | right {a : Addr} (less : (m.heap a).kv.key < k) : RStep k m (.at (some a)) (.at (m.heap a).right)
  | missing : RStep k m (.at none) (.done none)

/-- The pairs in the tree under the root. -/
def Binds (m : Mem) (x : Kv) : Prop := ∃ t, Shape m.heap t ∧ ptr t = m.root ∧ x ∈ kvs t

def Bound (m : Mem) (k : Nat) : Prop := ∃ x, Binds m x ∧ x.key = k

/-- The nodes that were in the tree at one of these moments. -/
def Seen (ms : List Mem) : Set Addr := {a | ∃ m ∈ ms, Reach m.heap m.root a}

/-- A search for `k` called in state `σ₀` and interleaved with the writer: the memories since then, the
latest first, the state of the writer and that of the search. -/
inductive SearchRun (fuel k : Nat) (σ₀ : Sys) : List Mem → Sys → Find → Prop where
  | call : SearchRun fuel k σ₀ [σ₀.mem] σ₀ .called
  | read {ms : List Mem} {σ : Sys} {f f' : Find} (run : SearchRun fuel k σ₀ ms σ f) (step : RStep k σ.mem f f') :
      SearchRun fuel k σ₀ ms σ f'
  | write {ms : List Mem} {σ σ' : Sys} {f : Find} (run : SearchRun fuel k σ₀ ms σ f)
      (step : WStep fuel (Seen ms) σ σ') : SearchRun fuel k σ₀ (σ'.mem :: ms) σ' f

/-- What is true of the nodes a search may hold: they lead to such nodes only, and each pair was bound
at some moment. -/
structure SeenInv (ms : List Mem) (h : Heap) : Prop where
  closed : ∀ a ∈ Seen ms, ∀ d b, (h a).child d = some b → b ∈ Seen ms
  bound : ∀ a ∈ Seen ms, ∃ m ∈ ms, Binds m (h a).kv

/-- What is true of a search: where its walk leads. -/
def FindInv (k : Nat) (ms : List Mem) (h : Heap) : Find → Prop
  | .called => True
  | .at p => (∀ a, p = some a → a ∈ Seen ms) ∧
      ∃ r, Walk h k p r ∧ ((∀ m ∈ ms, Bound m k) → r ≠ none) ∧ ((∀ m ∈ ms, ¬ Bound m k) → r = none)
  | .done r => (∀ a, r = some a → a ∈ Seen ms ∧ (h a).kv.key = k) ∧
      ((∀ m ∈ ms, Bound m k) → r ≠ none) ∧ ((∀ m ∈ ms, ¬ Bound m k) → r = none)

/-- The invariant of an interleaved search. -/
structure SearchInv (k : Nat) (ms : List Mem) (σ : Sys) (f : Find) : Prop where
  latest : ∃ rest, ms = σ.mem :: rest
  working : ∃ t t' F c es, Working (Seen ms) σ t t' F c es
  seen : SeenInv ms σ.mem.heap
  find : FindInv k ms σ.mem.heap f

theorem Reach.child {h : Heap} {p : Option Addr} {a b : Addr} {d : Side} (reach : Reach h p a)
    (child : (h a).child d = some b) : Reach h p b := by
  induction reach with
  | here =>
    cases d with
    | left => exact .left (by rw [show (h _).left = some b from child]; exact .here)
    | right => exact .right (by rw [show (h _).right = some b from child]; exact .here)
  | left _ ih => exact .left (ih child)
  | right _ ih => exact .right (ih child)

theorem Shape.child_mem {h : Heap} {t : Tree} (shape : Shape h t) {a b : Addr} {d : Side} (member : a ∈ addrs t)
    (child : (h a).child d = some b) : b ∈ addrs t := by
  rw [← shape.reach_iff] at member ⊢
  exact member.child child

theorem Shape.pair_mem {h : Heap} {t : Tree} (shape : Shape h t) {a : Addr} (member : a ∈ addrs t) :
    (h a).kv ∈ kvs t := by
  induction t with
  | nil => cases member
  | node p l r ihl ihr =>
    obtain ⟨_, _, pair, shapeL, shapeR⟩ := shape
    simp only [addrs_node, kvs_node, List.mem_append, List.mem_cons] at member ⊢
    rcases member with inside | rfl | inside
    · exact Or.inl (ihl shapeL inside)
    · exact Or.inr (Or.inl pair)
    · exact Or.inr (Or.inr (ihr shapeR inside))

theorem seen_cons {m : Mem} {ms : List Mem} {t : Tree} (shape : Shape m.heap t) (root : ptr t = m.root) :
    Seen (m :: ms) = Seen ms ∪ {a | a ∈ addrs t} := by
  ext a
  simp only [Seen, Set.mem_ofPred_eq, Set.mem_union, List.mem_cons, exists_eq_or_imp, ← root, shape.reach_iff]
  exact or_comm

/-- The pairs of the memory are those of its tree. -/
theorem binds_iff {m : Mem} {t : Tree} (shape : Shape m.heap t) (root : ptr t = m.root) (x : Kv) :
    Binds m x ↔ x ∈ kvs t := by
  constructor
  · rintro ⟨t', shape', root', member⟩
    rwa [shape.unique shape' (root.trans root'.symm)]
  · exact fun member => ⟨t, shape, root, member⟩

theorem bound_iff {m : Mem} {t : Tree} (shape : Shape m.heap t) (root : ptr t = m.root) (k : Nat) :
    Bound m k ↔ ∃ x ∈ kvs t, x.key = k := by
  simp only [Bound, binds_iff shape root]

/-! ## Every step keeps the invariant -/

theorem Walk.det {h : Heap} {k : Nat} {p r r' : Option Addr} (walk : Walk h k p r) (walk' : Walk h k p r') : r = r' := by
  induction walk with
  | missing => cases walk'; rfl
  | found isKey =>
    cases walk' with
    | found _ => rfl
    | left greater _ => omega
    | right less _ => omega
  | left greater below ih =>
    cases walk' with
    | found isKey => omega
    | left _ below' => exact ih below'
    | right less _ => omega
  | right less below ih =>
    cases walk' with
    | found isKey => omega
    | left greater _ => omega
    | right _ below' => exact ih below'

theorem Relink.apart {x : Addr} {d : Side} {v t t' : Tree} (link : Relink x d v t t') (nodup : (addrs t').Nodup) :
    x ∉ addrs v := by
  induction link with
  | here => exact (nodup_withChild.mp nodup).2.2.1
  | inner deeper ih => exact ih (nodup_withChild.mp nodup).1

/-- **A search survives a step of the writer**: its walk still ends; if the key is bound before and after,
a walk that found it still does; if the key is not bound afterwards, a walk that missed it still does. -/
theorem Walk.change {V : Set Addr} {h h' : Heap} {t t₁ : Tree} {k : Nat} {p r : Option Addr} (change : Change V h h' t t₁)
    (shape : Shape h t) (ordered : Ordered Kv.key (erase t)) (ordered₁ : Ordered Kv.key (erase t₁))
    (inside : ∀ a, p = some a → a ∈ V) (closed : ∀ a ∈ V, ∀ d b, (h a).child d = some b → b ∈ V)
    (walk : Walk h k p r) :
    ∃ r', Walk h' k p r' ∧ (r ≠ none → (∃ x ∈ kvs t₁, x.key = k) → r' ≠ none) ∧
      (r = none → (¬ ∃ x ∈ kvs t₁, x.key = k) → r' = none) := by
  rcases change with same | ⟨x, d, v, link, new, nodup, rfl⟩
  · exact ⟨r, walk.frame inside closed same, fun found _ => found, fun missed _ => missed⟩
  · rcases walk.link (d := d) (x := x) (q := ptr v) with same | ⟨turns, atNode, follow⟩
    · exact ⟨r, same, fun found _ => found, fun missed _ => missed⟩
    · -- the walk went into the subtree `u` that `v` replaces
      obtain ⟨u, A, B, old, after, child, shapeU⟩ := link.contents shape
      obtain ⟨r', walk', found', present⟩ := (link_frame (d := d) (p := ptr v) new (link.apart nodup)).walk k
      have sorted₁ : (A ++ kvs v ++ B).Pairwise fun x y => x.key < y.key := by
        rw [← after, kvs_eq_inorder]
        exact ordered₁
      have sorted : (A ++ kvs u ++ B).Pairwise fun x y => x.key < y.key := by
        rw [← old, kvs_eq_inorder]
        exact ordered
      refine ⟨r', follow r' walk', fun found bound => ?_, fun _ unbound => ?_⟩
      · refine present ?_ ?_
        · rw [Ordered, ← kvs_eq_inorder]
          exact (List.pairwise_append.mp (List.pairwise_append.mp sorted₁).1).2.1
        · -- the key is in `u`, so it is nowhere else in the tree
          have below := atNode.follow turns
          rw [child] at below
          obtain ⟨r'', walk'', found'', _⟩ := shapeU.walk k
          obtain ⟨z, isNode⟩ := Option.ne_none_iff_exists'.mp found
          obtain ⟨_, inU, isKey⟩ := found'' z ((walk''.det below).trans isNode)
          obtain ⟨y, member, isKey'⟩ := bound
          rw [after, List.mem_append, List.mem_append] at member
          obtain ⟨left, _, right⟩ := List.pairwise_append.mp sorted
          rcases member with (inA | inV) | inB
          · have less := (List.pairwise_append.mp left).2.2 y inA _ inU
            omega
          · exact ⟨y, inV, isKey'⟩
          · have less := right _ (List.mem_append_right _ inU) y inB
            omega
      · cases isRes : r' with
        | none => rfl
        | some a =>
          obtain ⟨_, inV, isKey⟩ := found' a isRes
          refine absurd ⟨_, ?_, isKey⟩ unbound
          rw [after]
          simp [inV]

theorem Working.ordered_tree {V : Set Addr} {σ : Sys} {t t' : Tree} {F : Set Addr} {c : List Kv} {es : List Event}
    (w : Working V σ t t' F c es) : Ordered Kv.key (erase t) := by
  rw [Ordered, ← kvs_eq_inorder]
  rcases w.contents with same | same
  · rw [same]; exact w.ordered
  · rw [same, kvs_eq_inorder]; exact w.ordered'

/-- The nodes known before a step keep their pair, and their pointers unless they are in the new tree. -/
theorem Change.known {V : Set Addr} {h h' : Heap} {t t₁ : Tree} (change : Change V h h' t t₁) {a : Addr} (member : a ∈ V) :
    (h' a).kv = (h a).kv ∧ (a ∈ addrs t₁ ∨ SameLinks (h' a) (h a)) := by
  rcases change with same | ⟨x, d, v, link, _, _, rfl⟩
  · exact ⟨(same a member).kv, Or.inr (same a member)⟩
  · by_cases here : a = x
    · subst here
      exact ⟨(child_link h a d _).2.2, Or.inl link.mem.2⟩
    · have same : (Event.link d x (ptr v)).apply h a = h a :=
        Event.apply_of_ne h fun target => here (Option.some.inj target).symm
      rw [same]
      exact ⟨rfl, Or.inr (SameLinks.refl _)⟩

theorem SameLinks.child {n n' : Node} (same : SameLinks n n') (d : Side) : n.child d = n'.child d := by
  cases d with
  | left => exact same.left
  | right => exact same.right

/-- A store of the writer. -/
theorem SearchInv.store {k : Nat} {ms : List Mem} {m : Mem} {e : Event} {es : List Event} {M M' : List Kv} {f : Find}
    (inv : SearchInv k ms ⟨m, e :: es, M, M'⟩ f) : SearchInv k (m.apply e :: ms) ⟨m.apply e, es, M, M'⟩ f := by
  obtain ⟨⟨rest, latest⟩, ⟨t, t', F, c, inner, w⟩, seen, find⟩ := inv
  obtain ⟨t₁, inner', change, w'⟩ := w.store rfl
  have grown : Seen (m.apply e :: ms) = Seen ms ∪ {a | a ∈ addrs t₁} := seen_cons w'.shape w'.root
  have newer : ∀ P : Mem → Prop, (∀ x ∈ m.apply e :: ms, P x) → P (m.apply e) ∧ P m ∧ ∀ x ∈ ms, P x := by
    intro P all
    refine ⟨all _ List.mem_cons_self, all m ?_, fun x member => all x (List.mem_cons_of_mem _ member)⟩
    rw [latest]
    simp
  refine ⟨⟨ms, rfl⟩, ⟨t₁, t', F, c, inner', grown ▸ w'⟩, ⟨?_, ?_⟩, ?_⟩
  · intro a member d b child
    rw [grown] at member ⊢
    rcases member with old | new
    · rcases (change.known old).2 with new | same
      · exact Or.inr (w'.shape.child_mem new child)
      · exact Or.inl (seen.closed a old d b ((same.child d).symm.trans child))
    · exact Or.inr (w'.shape.child_mem new child)
  · intro a member
    rw [grown] at member
    rcases member with old | new
    · obtain ⟨x, moment, binds⟩ := seen.bound a old
      exact ⟨x, List.mem_cons_of_mem _ moment, by rw [(change.known old).1]; exact binds⟩
    · exact ⟨_, List.mem_cons_self, (binds_iff w'.shape w'.root _).mpr (w'.shape.pair_mem new)⟩
  · cases f with
    | called => trivial
    | «at» p =>
      obtain ⟨inside, r, walk, bound, unbound⟩ := find
      obtain ⟨r', walk', keeps, misses⟩ := walk.change change w.shape w.ordered_tree w'.ordered_tree inside seen.closed
      refine ⟨fun a isNode => by rw [grown]; exact Or.inl (inside a isNode), r', walk', fun all => ?_, fun all => ?_⟩
      · obtain ⟨now, _, before⟩ := newer _ all
        exact keeps (bound before) ((bound_iff w'.shape w'.root k).mp now)
      · obtain ⟨now, _, before⟩ := newer _ all
        exact misses (unbound before) fun present => now ((bound_iff w'.shape w'.root k).mpr present)
    | done r =>
      obtain ⟨inside, bound, unbound⟩ := find
      refine ⟨fun a isNode => ?_, fun all => bound (newer _ all).2.2, fun all => unbound (newer _ all).2.2⟩
      obtain ⟨member, isKey⟩ := inside a isNode
      exact ⟨by rw [grown]; exact Or.inl member, by rw [(change.known member).1]; exact isKey⟩

/-- A step of the writer leaves the pair of a node that the search may hold. -/
theorem SearchInv.pair {fuel k : Nat} {ms : List Mem} {σ σ' : Sys} {f : Find} {a : Addr} (inv : SearchInv k ms σ f)
    (step : WStep fuel (Seen ms) σ σ') (member : a ∈ Seen ms) : (σ'.mem.heap a).kv = (σ.mem.heap a).kv := by
  cases step with
  | begin => rfl
  | store =>
    obtain ⟨t, t', F, c, es, w⟩ := inv.working
    obtain ⟨t₁, es₁, change, _⟩ := w.store rfl
    exact (change.known member).1

/-- Looking at the same memory again changes nothing. -/
theorem seen_again {m : Mem} {ms : List Mem} (member : m ∈ ms) : Seen (m :: ms) = Seen ms := by
  ext a
  simp only [Seen, Set.mem_ofPred_eq, List.mem_cons, exists_eq_or_imp]
  exact ⟨fun either => either.elim (fun reach => ⟨m, member, reach⟩) id, Or.inr⟩

theorem FindInv.again {k : Nat} {m : Mem} {ms : List Mem} {h : Heap} {f : Find} (member : m ∈ ms)
    (inv : FindInv k ms h f) : FindInv k (m :: ms) h f := by
  have all : ∀ P : Mem → Prop, (∀ x ∈ m :: ms, P x) ↔ ∀ x ∈ ms, P x := fun P =>
    ⟨fun every x old => every x (List.mem_cons_of_mem _ old), fun every x old => by
      rcases List.mem_cons.mp old with rfl | older
      · exact every x member
      · exact every x older⟩
  cases f with
  | called => trivial
  | «at» p => simpa only [FindInv, seen_again member, all] using inv
  | done r => simpa only [FindInv, seen_again member, all] using inv

/-- The writer begins an operation. -/
theorem SearchInv.begin {fuel k : Nat} {ms : List Mem} {m : Mem} {M M' : List Kv} {f : Find} {cells : Nat → Addr} {op : Op}
    {res : Res} {es : List Event} (deep : maxNodes ≤ fuel) (inv : SearchInv k ms ⟨m, [], M, M'⟩ f) (fresh : Fresh cells m)
    (unseen : ∀ i, cells i ∉ Seen ms) (run : op.run fuel cells m = some (res, es))
    (small : (op.ref M').length < maxNodes) : SearchInv k (m :: ms) ⟨m, es, M', op.ref M'⟩ f := by
  obtain ⟨⟨rest, latest⟩, ⟨t, t', F, c, inner, w⟩, seen, find⟩ := inv
  have member : m ∈ ms := by rw [latest]; exact List.mem_cons_self
  obtain ⟨t'', F', c', inner', w'⟩ := (w.represents rfl).begin deep w.inside w.small fresh unseen run small
  refine ⟨⟨ms, rfl⟩, ⟨t, t'', F', c', inner', by rw [seen_again member]; exact w'⟩, ⟨?_, ?_⟩, find.again member⟩
  · rw [seen_again member]
    exact seen.closed
  · rw [seen_again member]
    intro a known
    obtain ⟨x, moment, binds⟩ := seen.bound a known
    exact ⟨x, List.mem_cons_of_mem _ moment, binds⟩

/-- A load of the reader. -/
theorem SearchInv.read {k : Nat} {ms : List Mem} {σ : Sys} {f f' : Find} (inv : SearchInv k ms σ f)
    (step : RStep k σ.mem f f') : SearchInv k ms σ f' := by
  refine ⟨inv.latest, inv.working, inv.seen, ?_⟩
  have find := inv.find
  cases step with
  | root =>
    obtain ⟨t, t', F, c, es, w⟩ := inv.working
    obtain ⟨rest, latest⟩ := inv.latest
    have now : σ.mem ∈ ms := by rw [latest]; exact List.mem_cons_self
    obtain ⟨r, walk, found, present⟩ := w.shape.walk k
    rw [w.root] at walk
    refine ⟨fun a isRoot => ⟨σ.mem, now, by rw [isRoot]; exact .here⟩, r, walk, fun all => ?_, fun all => ?_⟩
    · exact present w.ordered_tree ((bound_iff w.shape w.root k).mp (all _ now))
    · cases isRes : r with
      | none => rfl
      | some a =>
        obtain ⟨_, inside, isKey⟩ := found a isRes
        exact absurd ((bound_iff w.shape w.root k).mpr ⟨_, inside, isKey⟩) (all _ now)
  | @found a isKey =>
    obtain ⟨inside, r, walk, bound, unbound⟩ := find
    have result : r = some a := walk.det (.found isKey)
    subst result
    refine ⟨fun b isNode => ?_, bound, unbound⟩
    obtain rfl := Option.some.inj isNode
    exact ⟨inside a rfl, isKey⟩
  | @left a greater =>
    obtain ⟨inside, r, walk, bound, unbound⟩ := find
    exact ⟨fun b child => inv.seen.closed a (inside a rfl) .left b child, r, walk.follow (d := .left) greater, bound, unbound⟩
  | @right a less =>
    obtain ⟨inside, r, walk, bound, unbound⟩ := find
    exact ⟨fun b child => inv.seen.closed a (inside a rfl) .right b child, r, walk.follow (d := .right) less, bound, unbound⟩
  | missing =>
    obtain ⟨_, r, walk, bound, unbound⟩ := find
    have result : r = none := walk.det .missing
    subst result
    exact ⟨fun a isNode => (by cases isNode), bound, unbound⟩

/-- **Every interleaving keeps the invariant.** -/
theorem SearchRun.inv {fuel k : Nat} {σ₀ σ : Sys} {ms : List Mem} {f : Find} (deep : maxNodes ≤ fuel)
    (written : Written fuel σ₀) (run : SearchRun fuel k σ₀ ms σ f) : SearchInv k ms σ f := by
  induction run with
  | call =>
    obtain ⟨V, t, t', F, c, es, w⟩ := written.working deep
    have seen : Seen [σ₀.mem] = {a | a ∈ addrs t} := by
      rw [seen_cons w.shape w.root]
      ext a
      simp [Seen]
    refine ⟨⟨[], rfl⟩, ⟨t, t', F, c, es, by rw [seen]; exact w.restrict⟩, ⟨?_, ?_⟩, trivial⟩
    · rw [seen]
      exact fun a member d b child => w.shape.child_mem member child
    · rw [seen]
      exact fun a member => ⟨σ₀.mem, List.mem_cons_self, (binds_iff w.shape w.root _).mpr (w.shape.pair_mem member)⟩
  | read run step ih => exact ih.read step
  | write run step ih =>
    cases step with
    | begin fresh unseen opRun small => exact ih.begin deep fresh unseen opRun small
    | store => exact ih.store

/-- A search that runs on alone returns. -/
theorem Walk.returns {k : Nat} {m : Mem} {p r : Option Addr} (walk : Walk m.heap k p r) :
    Relation.ReflTransGen (RStep k m) (.at p) (.done r) := by
  induction walk with
  | missing => exact .single .missing
  | found isKey => exact .single (.found isKey)
  | left greater below ih => exact .head (.left greater) ih
  | right less below ih => exact .head (.right less) ih

/-- The writer performs the rest of its operation. -/
theorem Written.finish {fuel : Nat} {M M' : List Kv} (es : List Event) {m : Mem} (written : Written fuel ⟨m, es, M, M'⟩) :
    Written fuel ⟨m.applyAll es, [], M, M'⟩ := by
  induction es generalizing m with
  | nil => exact written
  | cons e rest ih => exact ih (.step written .store)

theorem SearchRun.finish {fuel k : Nat} {σ₀ : Sys} {M M' : List Kv} {f : Find} (es : List Event) {ms : List Mem} {m : Mem}
    (run : SearchRun fuel k σ₀ ms ⟨m, es, M, M'⟩ f) : ∃ ms', SearchRun fuel k σ₀ ms' ⟨m.applyAll es, [], M, M'⟩ f := by
  induction es generalizing m ms with
  | nil => exact ⟨ms, run⟩
  | cons e rest ih => exact ih (.write run .store)

/-- **Lock-free readers are correct.** In every interleaving of a search for `k` with a writer: memory
holds the map before or after the operation in progress; the search returns once it runs on; if `k`
was bound at every moment since the call it returns a node with key `k`; if `k` was unbound at every
moment it returns NULL; and the pair of a node it returns has key `k` and was bound at some moment
since the call. -/
theorem treeBBFind_concurrent {fuel k : Nat} {σ₀ σ : Sys} {ms : List Mem} {f : Find} (deep : maxNodes ≤ fuel)
    (written : Written fuel σ₀) (run : SearchRun fuel k σ₀ ms σ f) :
    ((∀ x, Binds σ.mem x ↔ x ∈ σ.before) ∨ ∀ x, Binds σ.mem x ↔ x ∈ σ.after) ∧
    (∃ r, Relation.ReflTransGen (RStep k σ.mem) f (.done r)) ∧
    ∀ r, f = .done r →
      ((∀ m ∈ ms, Bound m k) → ∃ a, r = some a ∧ (σ.mem.heap a).kv.key = k) ∧
      ((∀ m ∈ ms, ¬ Bound m k) → r = none) ∧
      ∀ a, r = some a → (σ.mem.heap a).kv.key = k ∧ ∃ m ∈ ms, Binds m (σ.mem.heap a).kv := by
  have inv := run.inv deep written
  refine ⟨?_, ?_, ?_⟩
  · obtain ⟨t, t', F, c, es, w⟩ := inv.working
    rcases w.contents with same | same
    · exact Or.inl fun x => by rw [binds_iff w.shape w.root, same, w.before.mem_iff]
    · exact Or.inr fun x => by rw [binds_iff w.shape w.root, same, w.after.mem_iff]
  · cases f with
    | called =>
      obtain ⟨_, r, walk, _⟩ := (inv.read .root).find
      exact ⟨r, .head .root walk.returns⟩
    | «at» p =>
      obtain ⟨_, r, walk, _⟩ := inv.find
      exact ⟨r, walk.returns⟩
    | done r => exact ⟨r, .refl⟩
  · rintro r rfl
    obtain ⟨inside, bound, unbound⟩ := inv.find
    refine ⟨fun all => ?_, unbound, fun a isNode => ?_⟩
    · obtain ⟨a, isNode⟩ := Option.ne_none_iff_exists'.mp (bound all)
      exact ⟨a, isNode, (inside a isNode).2⟩
    · exact ⟨(inside a isNode).2, inv.seen.bound a (inside a isNode).1⟩

/-- A search for 2 in the tree 1, 2 has loaded the root when an insertion of 3 rotates both nodes out of
the tree: it goes on through them and finds its key. -/
theorem treeBBFind_concurrent_rotation :
    ∃ σ₀ σ ms, σ₀.mem = chain ∧ SearchRun maxNodes 2 σ₀ ms σ (.done (some 10)) ∧ σ.mem.root = some 22 ∧
      (σ.mem.heap 10).kv.key = 2 ∧ ∃ m ∈ ms, Binds m (σ.mem.heap 10).kv := by
  have empty : Written maxNodes ⟨emptyTree, [], [], []⟩ := .init
  have first : Written maxNodes ⟨_, [], [], [⟨1, 1⟩]⟩ :=
    (Written.step empty (.begin emptyTree_fresh (fun _ => Set.notMem_empty _)
      (rfl : (Op.insert 1 1).run maxNodes id emptyTree = _) (by decide))).finish
  have fresh : Fresh (10 + ·) (emptyTree.applyAll (nodeEvents 0 none none 1 ⟨1, 1⟩ ++ [.root (some 0)])) :=
    fresh_above (t := node (0, ⟨1, 1⟩) nil nil) ⟨rfl, rfl, rfl, trivial, trivial⟩ rfl (by decide)
  have second : Written maxNodes ⟨chain, [], [⟨1, 1⟩], [⟨2, 2⟩, ⟨1, 1⟩]⟩ :=
    (Written.step first (.begin fresh (fun _ => Set.notMem_empty _)
      (rfl : (Op.insert 2 2).run maxNodes (10 + ·) _ = _) (by decide))).finish
  have loaded : SearchRun maxNodes 2 ⟨chain, [], [⟨1, 1⟩], [⟨2, 2⟩, ⟨1, 1⟩]⟩ [chain] _ (.at (some 0)) := .read .call .root
  have began := SearchRun.write loaded (.begin chain_fresh (fun i seen => by
      obtain ⟨m, isNow, reach⟩ := seen
      rw [List.mem_singleton.mp isNow] at reach
      exact chain_fresh.unused i reach)
    (rfl : (Op.insert 3 3).run maxNodes (20 + ·) chain = _) (by decide))
  obtain ⟨ms, inserted⟩ := began.finish
  have search := (inserted.read (.right (by decide))).read (.found (a := 10) rfl)
  obtain ⟨_, _, result⟩ := treeBBFind_concurrent (Nat.le_refl _) second search
  exact ⟨_, _, ms, rfl, search, rfl, (result _ rfl).2.2 10 rfl⟩

end BiProject.RbTree
