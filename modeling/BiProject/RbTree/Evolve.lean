import BiProject.RbTree.Repr
import Mathlib.Data.Set.Basic

/-!
# What readers can see of an update

Readers follow child pointers and compare keys; they never look at sizes. `Shape` is what memory
must be for them: the pointers and pairs of a tree. While the writer works on a subtree, the pointer
to it from above stays what it was, and the tree below that pointer changes only when a child
pointer of one of its nodes is stored to (`Relink`); all other stores go to nodes that no reader has
reached yet. `Evolve` says so of a list of events, and that whatever is linked in has one of two
contents, those before the operation and those after it.
-/

namespace BiProject.RbTree
set_option autoImplicit false
open BiProject.Lib.SearchTree BinaryTree

/-- Memory has the pointers and the pairs of the tree. -/
def Shape (h : Heap) : Tree → Prop
  | nil => True
  | node p l r => (h p.1).left = ptr l ∧ (h p.1).right = ptr r ∧ (h p.1).kv = p.2 ∧ Shape h l ∧ Shape h r

theorem Holds.shape {h : Heap} {t : Tree} (holds : Holds h t) : Shape h t := by
  induction t with
  | nil => trivial
  | node p l r ihl ihr =>
    obtain ⟨here, left, right⟩ := holds
    exact ⟨by rw [here], by rw [here], by rw [here], ihl left, ihr right⟩

/-- A pointer determines the tree below it. -/
theorem Shape.unique {h : Heap} {t t' : Tree} (shape : Shape h t) (shape' : Shape h t') (same : ptr t = ptr t') :
    t = t' := by
  induction t generalizing t' with
  | nil =>
    cases t' with
    | nil => rfl
    | node p l r => cases same
  | node p l r ihl ihr =>
    cases t' with
    | nil => cases same
    | node p' l' r' =>
      obtain ⟨left, right, pair, shapeL, shapeR⟩ := shape
      obtain ⟨left', right', pair', shapeL', shapeR'⟩ := shape'
      have address : p.1 = p'.1 := Option.some.inj same
      rw [address] at left right pair
      rw [ihl shapeL shapeL' (left.symm.trans left'), ihr shapeR shapeR' (right.symm.trans right'),
        Prod.ext address (pair.symm.trans pair')]

/-- Two nodes that look the same to a reader. -/
structure SameLinks (n n' : Node) : Prop where
  left : n.left = n'.left
  right : n.right = n'.right
  kv : n.kv = n'.kv

theorem SameLinks.refl (n : Node) : SameLinks n n := ⟨rfl, rfl, rfl⟩

theorem Shape.frame {h h' : Heap} {t : Tree} (shape : Shape h t) (same : ∀ a ∈ addrs t, SameLinks (h' a) (h a)) :
    Shape h' t := by
  induction t with
  | nil => trivial
  | node p l r ihl ihr =>
    obtain ⟨left, right, pair, shapeL, shapeR⟩ := shape
    simp only [addrs_node, List.mem_append, List.mem_cons] at same
    have here := same p.1 (Or.inr (Or.inl rfl))
    exact ⟨here.left.trans left, here.right.trans right, here.kv.trans pair,
      ihl shapeL fun a member => same a (Or.inl member), ihr shapeR fun a member => same a (Or.inr (Or.inr member))⟩

/-- Of a thing on side `d` and one on the other side, the left and the right one. -/
def Side.fst {β : Type*} (d : Side) (c o : β) : β :=
  match d with
  | .left => c
  | .right => o

def Side.snd {β : Type*} (d : Side) (c o : β) : β :=
  match d with
  | .left => o
  | .right => c

/-- A node with child `c` on side `d` and child `o` on the other. -/
def withChild (d : Side) (p : Addr × Kv) (c o : Tree) : Tree := node p (d.fst c o) (d.snd c o)

/-- The contents of such a node from those of its children. -/
def around (d : Side) (x : Kv) (c o : List Kv) : List Kv := d.fst c o ++ x :: d.snd c o

@[simp] theorem ptr_withChild (d : Side) (p : Addr × Kv) (c o : Tree) : ptr (withChild d p c o) = some p.1 := by
  cases d <;> rfl

@[simp] theorem kvs_withChild (d : Side) (p : Addr × Kv) (c o : Tree) :
    kvs (withChild d p c o) = around d p.2 (kvs c) (kvs o) := by
  cases d <;> exact kvs_node _ _ _

@[simp] theorem mem_addrs_withChild {d : Side} {p : Addr × Kv} {c o : Tree} {a : Addr} :
    a ∈ addrs (withChild d p c o) ↔ a = p.1 ∨ a ∈ addrs c ∨ a ∈ addrs o := by
  cases d <;> simp only [withChild, Side.fst, Side.snd, addrs_node, List.mem_append, List.mem_cons]
  · exact or_left_comm
  · rw [or_left_comm, or_comm (a := a ∈ addrs o)]

theorem nodup_withChild {d : Side} {p : Addr × Kv} {c o : Tree} :
    (addrs (withChild d p c o)).Nodup ↔
      (addrs c).Nodup ∧ (addrs o).Nodup ∧ p.1 ∉ addrs c ∧ p.1 ∉ addrs o ∧ ∀ a ∈ addrs c, a ∉ addrs o := by
  cases d <;> simp only [withChild, Side.fst, Side.snd, addrs_node] <;> grind

def Side.other : Side → Side
  | .left => .right
  | .right => .left

theorem shape_withChild {h : Heap} {d : Side} {p : Addr × Kv} {c o : Tree} :
    Shape h (withChild d p c o) ↔
      (h p.1).child d = ptr c ∧ (h p.1).child d.other = ptr o ∧ (h p.1).kv = p.2 ∧ Shape h c ∧ Shape h o := by
  cases d with
  | left => exact Iff.rfl
  | right =>
    constructor
    · rintro ⟨left, right, pair, shapeL, shapeR⟩
      exact ⟨right, left, pair, shapeR, shapeL⟩
    · rintro ⟨right, left, pair, shapeR, shapeL⟩
      exact ⟨left, right, pair, shapeL, shapeR⟩

/-! ## Visible stores -/

/-- `t'` is `t` with the child of node `x` on side `d` replaced by `v`. -/
inductive Relink (x : Addr) (d : Side) (v : Tree) : Tree → Tree → Prop where
  | here {kv : Kv} {u o : Tree} : Relink x d v (withChild d (x, kv) u o) (withChild d (x, kv) v o)
  | inner {d' : Side} {p : Addr × Kv} {u u' o : Tree} (deeper : Relink x d v u u') :
      Relink x d v (withChild d' p u o) (withChild d' p u' o)

section Relink
variable {x : Addr} {d : Side} {v t t' : Tree}

theorem Relink.ptr_eq (link : Relink x d v t t') : ptr t' = ptr t := by
  cases link <;> simp

theorem Relink.mem (link : Relink x d v t t') : x ∈ addrs t ∧ x ∈ addrs t' := by
  induction link with
  | here => simp
  | inner deeper ih =>
    simp only [mem_addrs_withChild]
    exact ⟨Or.inr (Or.inl ih.1), Or.inr (Or.inl ih.2)⟩

theorem child_link (h : Heap) (x : Addr) (d : Side) (p : Option Addr) :
    ((Event.link d x p).apply h x).child d = p ∧ ((Event.link d x p).apply h x).child d.other = (h x).child d.other ∧
      ((Event.link d x p).apply h x).kv = (h x).kv := by
  cases d <;> simp [Event.apply, modify, Node.setChild, Node.child, Side.other]

theorem link_frame {h : Heap} {p : Option Addr} (shape : Shape h t) (apart : x ∉ addrs t) :
    Shape ((Event.link d x p).apply h) t := by
  refine shape.frame fun a member => ?_
  rw [Event.apply_of_ne h (by rintro ⟨⟩; exact apart member)]
  exact SameLinks.refl _

/-- Storing the pointer gives the shape of the new tree. -/
theorem Relink.shape {h : Heap} (link : Relink x d v t t') (shape : Shape h t) (new : Shape h v)
    (nodup : (addrs t').Nodup) : Shape ((Event.link d x (ptr v)).apply h) t' := by
  induction link with
  | @here kv u o =>
    obtain ⟨_, other, pair, _, shapeO⟩ := shape_withChild.mp shape
    obtain ⟨_, _, apartV, apartO, _⟩ := nodup_withChild.mp nodup
    obtain ⟨child, other', pair'⟩ := child_link h x d (ptr v)
    exact shape_withChild.mpr ⟨child, other'.trans other, pair'.trans pair, link_frame new apartV, link_frame shapeO apartO⟩
  | @inner d' p u u' o deeper ih =>
    obtain ⟨child, other, pair, shapeU, shapeO⟩ := shape_withChild.mp shape
    obtain ⟨nodupU, _, apartU, _, cross⟩ := nodup_withChild.mp nodup
    have away : p.1 ≠ x := fun same => apartU (same ▸ deeper.mem.2)
    have same : (Event.link d x (ptr v)).apply h p.1 = h p.1 :=
      Event.apply_of_ne h (by rintro ⟨⟩; exact away rfl)
    refine shape_withChild.mpr ⟨?_, ?_, ?_, ih shapeU nodupU, link_frame shapeO (cross x deeper.mem.2)⟩
    · rw [same, child, deeper.ptr_eq]
    · rw [same, other]
    · rw [same, pair]

end Relink

/-- An event that readers of the nodes `V` cannot see: all its stores, sizes apart, go to cells of `F`
outside `V`. -/
def Event.Quiet (F V : Set Addr) : Event → Prop
  | .alloc _ | .free _ | .size _ _ => True
  | .link _ a _ | .kv a _ => a ∈ F ∧ a ∉ V
  | .root _ => False

theorem Event.Quiet.sameLinks {F V : Set Addr} {e : Event} (quiet : e.Quiet F V) (h : Heap) {a : Addr}
    (member : a ∈ V) : SameLinks (e.apply h a) (h a) := by
  cases e with
  | link d b p =>
    rw [Event.apply_of_ne h (by rintro ⟨⟩; exact quiet.2 member)]
    exact SameLinks.refl _
  | kv b x =>
    rw [Event.apply_of_ne h (by rintro ⟨⟩; exact quiet.2 member)]
    exact SameLinks.refl _
  | size b n =>
    simp only [Event.apply, modify]
    split <;> exact ⟨rfl, rfl, rfl⟩
  | alloc | free => exact SameLinks.refl _
  | root => exact quiet.elim

/-- The events `es` take the visible tree `t` to `t'`, both below the same pointer. `V` collects the
nodes that were visible; `c` and `c'` are the contents before and after the operation. -/
inductive Evolve (F : Set Addr) (c c' : List Kv) : Set Addr → Heap → Tree → List Event → Set Addr → Tree → Prop where
  | done {V : Set Addr} {h : Heap} {t : Tree} : Evolve F c c' V h t [] V t
  | quiet {V V' : Set Addr} {h : Heap} {t t' : Tree} {e : Event} {es : List Event} (quiet : e.Quiet F V)
      (rest : Evolve F c c' V (e.apply h) t es V' t') : Evolve F c c' V h t (e :: es) V' t'
  | publish {V V' : Set Addr} {h : Heap} {t t₁ t' v : Tree} {x : Addr} {d : Side} {es : List Event}
      (link : Relink x d v t t₁) (new : Shape h v) (nodup : (addrs t₁).Nodup) (contents : kvs t₁ = c ∨ kvs t₁ = c')
      (rest : Evolve F c c' (V ∪ {a | a ∈ addrs t₁}) ((Event.link d x (ptr v)).apply h) t₁ es V' t') :
      Evolve F c c' V h t (.link d x (ptr v) :: es) V' t'

section Evolve
variable {F : Set Addr} {c c' : List Kv} {V V' V'' : Set Addr} {h : Heap} {t t' t'' : Tree} {es es' : List Event}

theorem Evolve.append (first : Evolve F c c' V h t es V' t')
    (second : Evolve F c c' V' (applyAll h es) t' es' V'' t'') : Evolve F c c' V h t (es ++ es') V'' t'' := by
  induction first with
  | done => exact second
  | quiet quiet rest ih => exact .quiet quiet (ih second)
  | publish link new nodup contents rest ih => exact .publish link new nodup contents (ih second)

theorem Evolve.of_quiet (quiet : ∀ e ∈ es, e.Quiet F V) : Evolve F c c' V h t es V t := by
  induction es generalizing h with
  | nil => exact .done
  | cons e es ih =>
    exact .quiet (quiet e List.mem_cons_self) (ih fun x member => quiet x (List.mem_cons_of_mem _ member))

theorem Evolve.mono (evolve : Evolve F c c' V h t es V' t') : V ⊆ V' := by
  induction evolve with
  | done => exact subset_rfl
  | quiet quiet rest ih => exact ih
  | publish link new nodup contents rest ih => exact Set.subset_union_left.trans ih

theorem Evolve.ptr_eq (evolve : Evolve F c c' V h t es V' t') : ptr t' = ptr t := by
  induction evolve with
  | done => rfl
  | quiet quiet rest ih => exact ih
  | publish link new nodup contents rest ih => exact ih.trans link.ptr_eq

theorem Evolve.noRoot (evolve : Evolve F c c' V h t es V' t') (p : Option Addr) : Event.root p ∉ es := by
  induction evolve with
  | done => exact List.not_mem_nil
  | quiet quiet rest ih =>
    intro member
    rcases List.mem_cons.mp member with rfl | later
    · exact quiet
    · exact ih later
  | publish link new nodup contents rest ih =>
    intro member
    rcases List.mem_cons.mp member with same | later
    · cases same
    · exact ih later

/-- **Memory keeps the shape of the visible tree.** -/
theorem Evolve.shape (evolve : Evolve F c c' V h t es V' t') (shape : Shape h t) (inside : ∀ a ∈ addrs t, a ∈ V) :
    Shape (applyAll h es) t' ∧ ∀ a ∈ addrs t', a ∈ V' := by
  induction evolve with
  | done => exact ⟨shape, inside⟩
  | @quiet V V' h t t' e es quiet rest ih =>
    exact ih (shape.frame fun a member => quiet.sameLinks h (inside a member)) inside
  | publish link new nodup contents rest ih =>
    exact ih (link.shape shape new nodup) fun a member => Or.inr member

/-- The same events below a parent whose other nodes they leave alone. -/
theorem Evolve.lift (evolve : Evolve F c c' V h t es V' t') {d : Side} {p : Addr × Kv} {o : Tree}
    (nodupO : (addrs o).Nodup) (apart : p.1 ∉ addrs o) {W : Set Addr} (inside : ∀ a ∈ addrs t, a ∈ V)
    (context : ∀ a, a ∈ W ↔ a = p.1 ∨ a ∈ addrs o) (foreign : ∀ a ∈ W, a ∉ F ∧ a ∉ V') :
    Evolve F (around d p.2 c (kvs o)) (around d p.2 c' (kvs o)) (V ∪ W) h (withChild d p t o) es (V' ∪ W)
      (withChild d p t' o) := by
  induction evolve with
  | done => exact .done
  | @quiet V V' h t t' e es quiet rest ih =>
    refine .quiet ?_ (ih inside foreign)
    cases e with
    | link d b q => exact ⟨quiet.1, fun member => member.elim quiet.2 fun other => (foreign b other).1 quiet.1⟩
    | kv b x => exact ⟨quiet.1, fun member => member.elim quiet.2 fun other => (foreign b other).1 quiet.1⟩
    | size | alloc | free => trivial
    | root => exact quiet.elim
  | @publish V V' h t t₁ t' v x d' es link new nodup contents rest ih =>
    have reached : ∀ a ∈ addrs t₁, a ∈ V' := fun a member => rest.mono (Or.inr member)
    have avoids : ∀ a ∈ addrs t₁, ¬ (a = p.1 ∨ a ∈ addrs o) := fun a member other =>
      (foreign a ((context a).mpr other)).2 (reached a member)
    refine .publish (.inner link) new ?_ ?_ ?_
    · exact nodup_withChild.mpr ⟨nodup, nodupO, fun member => avoids _ member (Or.inl rfl), apart,
        fun a member other => avoids a member (Or.inr other)⟩
    · rw [kvs_withChild]
      exact contents.imp (fun same => by rw [same]) (fun same => by rw [same])
    · have same : V ∪ W ∪ {a | a ∈ addrs (withChild d p t₁ o)} = V ∪ {a | a ∈ addrs t₁} ∪ W := by
        ext a
        simp only [Set.mem_union, Set.mem_ofPred_eq, mem_addrs_withChild, context]
        grind
      rw [same]
      exact ih (fun a member => Or.inr member) foreign

end Evolve

end BiProject.RbTree
