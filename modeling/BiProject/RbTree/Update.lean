import BiProject.RbTree.Evolve
import Mathlib.Data.List.Nodup

/-!
# `insert` and `delete`

The two recursive updates, on any subtree in memory. Going down they only read; coming back up each
level is rotated, copied or updated in place by `mkBalanced`. `Updated` collects what a call does:
the result refines the functional operation, the nodes of the old subtree and those obtained are the
nodes of the new one and those freed, and readers see the old subtree evolve below its old pointer.
-/

namespace BiProject.RbTree
set_option autoImplicit false
open BiProject.Lib.SearchTree BinaryTree

/-- What an update of the subtree `t` did: `t'` is the new subtree, to be linked in by the caller. -/
structure Updated (cells : Nat → Addr) (s : St) (t : Tree) (es : List Event) (t' : Tree) : Prop where
  supply : allocs es = (List.range (allocs es).length).map fun i => cells (s.used + i)
  stores : ∀ e ∈ es, ∀ a, e.target = some a → a ∈ addrs t ∨ a ∈ allocs es
  holds : Holds (applyAll s.heap es) t'
  nodes : (addrs t ++ allocs es).Perm (addrs t' ++ frees es)
  visible : ∃ V tn, Evolve (Set.range cells) (kvs t) (kvs t') {a | a ∈ addrs t} s.heap t es V tn ∧
    ∀ a ∈ V, a ∈ addrs t ∨ a ∈ allocs es

/-- A subtree in memory whose nodes are distinct and are no cells to come. -/
structure Subtree (cells : Nat → Addr) (s : St) (t : Tree) : Prop where
  holds : Holds s.heap t
  nodup : (addrs t).Nodup
  fresh : ∀ a ∈ addrs t, a ∉ Set.range cells

section
variable {cells : Nat → Addr} {s : St} {t t' : Tree} {es : List Event}

theorem Updated.mem {a : Addr} (upd : Updated cells s t es t') (member : a ∈ addrs t') :
    a ∈ addrs t ∨ a ∈ allocs es :=
  List.mem_append.mp (upd.nodes.mem_iff.mpr (List.mem_append_left _ member))

theorem Updated.mem_allocs {a : Addr} (upd : Updated cells s t es t') (member : a ∈ allocs es) :
    ∃ i < (allocs es).length, cells (s.used + i) = a := by
  rw [upd.supply] at member
  obtain ⟨i, bound, here⟩ := List.mem_map.mp member
  exact ⟨i, List.mem_range.mp bound, here⟩

/-- Cells obtained are pairwise distinct, and none of the nodes the update started from. -/
theorem Updated.nodup (upd : Updated cells s t es t') (distinct : Function.Injective cells) (sub : Subtree cells s t) :
    (addrs t ++ allocs es).Nodup := by
  refine List.nodup_append.mpr ⟨sub.nodup, ?_, ?_⟩
  · rw [upd.supply]
    refine List.Nodup.map (fun i j same => ?_) List.nodup_range
    have index := distinct same
    omega
  · intro a old b new same
    obtain ⟨i, _, here⟩ := upd.mem_allocs new
    exact sub.fresh a old ⟨_, here.trans same.symm⟩

theorem Updated.nodup_result (upd : Updated cells s t es t') (distinct : Function.Injective cells)
    (sub : Subtree cells s t) : (addrs t').Nodup :=
  (List.nodup_append.mp (upd.nodes.nodup_iff.mp (upd.nodup distinct sub))).1

/-- The cells obtained in two stages. -/
theorem supply_append {es es' : List Event} (first : allocs es = (List.range (allocs es).length).map fun i => cells (s.used + i))
    (second : allocs es' = (List.range (allocs es').length).map fun i => cells ((s.emit es).used + i)) :
    allocs (es ++ es') = (List.range (allocs (es ++ es')).length).map fun i => cells (s.used + i) := by
  rw [allocs_append, List.length_append, List.range_add, List.map_append, List.map_map]
  congr 1
  rw [second, List.length_map, List.length_range]
  apply List.map_congr_left
  intro i _
  simp only [St.emit_used, Function.comp_apply, Nat.add_assoc]

theorem withChild_set {d : Side} {p : Addr × Kv} {u o : Tree} :
    {a | a ∈ addrs (withChild d p u o)} = {a | a ∈ addrs u} ∪ {a | a = p.1 ∨ a ∈ addrs o} := by
  ext a
  simp only [Set.mem_ofPred_eq, Set.mem_union, mem_addrs_withChild]
  exact or_left_comm

/-! ## One level up -/

/-- `mkBalanced` in place, called with a new child on side `d`, when no rotation is needed. -/
theorem balancedInPlace_run {d : Side} {cur : Addr} {c o : Option Addr} {σ : St}
    (same : (σ.heap cur).child d.other = o) :
    balancedInPlace cur (d.fst c o) (d.snd c o) d σ = some (cur, σ.emit
      ((if (σ.heap cur).child d ≠ c then [.link d cur c] else []) ++
        [.size cur (unsigned (int (int (1 + heapSize σ.heap (d.fst c o)) + heapSize σ.heap (d.snd c o))))])) := by
  by_cases change : (σ.heap cur).child d ≠ c
  · rw [if_pos change, ← St.emit_emit]
    have sizes := heapSize_link σ.heap d cur c
    cases d <;> simp only [Node.child, Side.other, Side.fst, Side.snd] at same change ⊢
    · rw [balancedInPlace, bind_run (rfl : load cur σ = _)]
      simp only [same, decide_true, if_true]
      rw [if_pos change, bind_run rfl, bind_run rfl, bind_run rfl]
      simp only [St.emit_heap, applyAll, List.foldl_cons, List.foldl_nil, sizes]
      rfl
    · rw [balancedInPlace, bind_run (rfl : load cur σ = _)]
      simp only [same, decide_true, if_true]
      rw [if_pos change, bind_run rfl, bind_run rfl, bind_run rfl]
      simp only [St.emit_heap, applyAll, List.foldl_cons, List.foldl_nil, sizes]
      rfl
  · rw [if_neg change, List.nil_append]
    cases d <;> simp only [Node.child, Side.other, Side.fst, Side.snd] at same change ⊢
    · rw [balancedInPlace, bind_run (rfl : load cur σ = _)]
      simp only [same, decide_true, if_true]
      rw [if_neg change]
      rfl
    · rw [balancedInPlace, bind_run (rfl : load cur σ = _)]
      simp only [same, decide_true, if_true]
      rw [if_neg change]
      rfl

theorem holds_withChild {h : Heap} {d : Side} {p : Addr × Kv} {c o : Tree} :
    Holds h (withChild d p c o) ↔
      h p.1 = ⟨d.fst (ptr c) (ptr o), d.snd (ptr c) (ptr o), c.numNodes + o.numNodes + 1, p.2⟩ ∧ Holds h c ∧ Holds h o := by
  cases d with
  | left => exact Iff.rfl
  | right =>
    simp only [withChild, Side.fst, Side.snd, Holds]
    rw [Nat.add_comm o.numNodes, and_comm (a := Holds h o)]

section Parent
variable {d : Side} {p : Addr × Kv} {u u' o : Tree}

theorem Subtree.child (sub : Subtree cells s (withChild d p u o)) : Subtree cells s u where
  holds := (holds_withChild.mp sub.holds).2.1
  nodup := (nodup_withChild.mp sub.nodup).1
  fresh := fun a member => sub.fresh a (mem_addrs_withChild.mpr (Or.inr (Or.inl member)))

/-- The parent and its other subtree are not touched by an update of the child. -/
theorem Updated.outside (upd : Updated cells s u es u') (sub : Subtree cells s (withChild d p u o)) {a : Addr}
    (member : a = p.1 ∨ a ∈ addrs o) : a ∉ addrs u ∧ a ∉ allocs es ∧ (s.emit es).heap a = s.heap a := by
  obtain ⟨_, _, apart, _, cross⟩ := nodup_withChild.mp sub.nodup
  have notChild : a ∉ addrs u := by
    rcases member with rfl | other
    · exact apart
    · exact fun inside => cross a inside other
  have notCell : a ∉ allocs es := by
    intro new
    obtain ⟨i, _, here⟩ := upd.mem_allocs new
    exact sub.fresh a (mem_addrs_withChild.mpr (member.imp_right Or.inr)) ⟨_, here⟩
  refine ⟨notChild, notCell, applyAll_of_ne _ fun e event target => ?_⟩
  exact (upd.stores e event a target).elim notChild notCell

theorem Updated.holds_other (upd : Updated cells s u es u') (sub : Subtree cells s (withChild d p u o)) :
    Holds (s.emit es).heap o :=
  (holds_withChild.mp sub.holds).2.2.frame fun _ member => (upd.outside sub (Or.inr member)).2.2

/-- What readers have seen when the child is done. -/
theorem Updated.visible_parent (upd : Updated cells s u es u') (sub : Subtree cells s (withChild d p u o)) :
    ∃ V tn, Evolve (Set.range cells) (around d p.2 (kvs u) (kvs o)) (around d p.2 (kvs u') (kvs o))
        {a | a ∈ addrs (withChild d p u o)} s.heap (withChild d p u o) es V (withChild d p tn o) ∧
      (∀ a ∈ V, a ∈ addrs (withChild d p u o) ∨ a ∈ allocs es) ∧ Shape (s.emit es).heap tn ∧ ptr tn = ptr u := by
  obtain ⟨V, tn, evolve, seen⟩ := upd.visible
  obtain ⟨_, nodupO, _, apartO, _⟩ := nodup_withChild.mp sub.nodup
  have foreign : ∀ a ∈ {a | a = p.1 ∨ a ∈ addrs o}, a ∉ Set.range cells ∧ a ∉ V := by
    intro a member
    have outside := upd.outside sub member
    exact ⟨sub.fresh a (mem_addrs_withChild.mpr (member.imp_right Or.inr)),
      fun inside => (seen a inside).elim outside.1 outside.2.1⟩
  have lifted := evolve.lift (d := d) (W := {a | a = p.1 ∨ a ∈ addrs o}) nodupO apartO (fun a member => member)
    (fun a => Iff.rfl) foreign
  rw [← withChild_set] at lifted
  refine ⟨_, tn, lifted, fun a member => ?_, (evolve.shape sub.child.holds.shape fun a member => member).1, evolve.ptr_eq⟩
  rcases member with inside | other
  · exact (seen a inside).imp_left fun old => mem_addrs_withChild.mpr (Or.inr (Or.inl old))
  · exact Or.inl (mem_addrs_withChild.mpr (other.imp_right Or.inr))

theorem kvs_balance {t' l r : Tree} {x : Kv} (erased : erase t' = balance weight x (erase l) (erase r)) :
    kvs t' = kvs l ++ x :: kvs r := by
  rw [kvs_eq_inorder, erased, inorder_balance, kvs_eq_inorder, kvs_eq_inorder]

/-- The subtrees of the parent with its new child, as the trees a rotation starts from. -/
theorem Updated.building (upd : Updated cells s u es u') (distinct : Function.Injective cells)
    (sub : Subtree cells s (withChild d p u o)) :
    Building cells (s.emit es) (p.1 :: (addrs u' ++ addrs o)) [] [d.fst u' o, d.snd u' o] [p.1] := by
  refine Building.start distinct ?_ ?_ ?_
  · have other := upd.holds_other sub
    cases d <;> simp only [Side.fst, Side.snd, List.mem_cons, List.not_mem_nil, or_false]
    · rintro t (rfl | rfl)
      · exact upd.holds
      · exact other
    · rintro t (rfl | rfl)
      · exact other
      · exact upd.holds
  · cases d <;> simp only [Side.fst, Side.snd, List.flatMap_cons, List.flatMap_nil, List.append_nil] <;> grind
  · intro a member i later same
    have old : ∀ b ∈ addrs (withChild d p u o), cells i ≠ b := fun b inside here => sub.fresh b inside ⟨i, here⟩
    simp only [List.mem_cons, List.mem_append] at member
    rcases member with rfl | child | other
    · exact old _ (mem_addrs_withChild.mpr (Or.inl rfl)) same
    · rcases upd.mem child with before | new
      · exact old a (mem_addrs_withChild.mpr (Or.inr (Or.inl before))) same
      · obtain ⟨j, bound, here⟩ := upd.mem_allocs new
        have index := distinct (same.trans here.symm)
        simp only [St.emit_used] at later
        omega
    · exact old a (mem_addrs_withChild.mpr (Or.inr (Or.inr other))) same

/-- **One level up, rotated**: the parent is replaced by new nodes. -/
theorem Updated.parent_rotated {es' : List Event} {t' : Tree} (upd : Updated cells s u es u')
    (sub : Subtree cells s (withChild d p u o)) (contents : kvs t' = around d p.2 (kvs u') (kvs o))
    (built : Building cells (s.emit es) (p.1 :: (addrs u' ++ addrs o)) es' [t'] []) :
    Updated cells s (withChild d p u o) (es ++ es') t' := by
  obtain ⟨V, tn, evolve, seen, _, _⟩ := upd.visible_parent sub
  refine ⟨supply_append upd.supply built.supply, ?_, ?_, ?_, V, withChild d p tn o, ?_, ?_⟩
  · intro e member a target
    rw [allocs_append, List.mem_append]
    rcases List.mem_append.mp member with first | second
    · rcases upd.stores e first a target with old | new
      · exact Or.inl (mem_addrs_withChild.mpr (Or.inr (Or.inl old)))
      · exact Or.inr (Or.inl new)
    · exact Or.inr (Or.inr (built.stores e second a target))
  · rw [applyAll_append]
    exact built.holds t' (List.mem_singleton_self _)
  · have first := upd.nodes
    have second := built.nodes
    have parent : (addrs (withChild d p u o)).Perm (p.1 :: (addrs u ++ addrs o)) := by
      cases d <;> simp only [withChild, Side.fst, Side.snd, addrs_node] <;> grind
    simp only [allocs_append, frees_append, List.flatMap_cons, List.flatMap_nil, List.append_nil] at *
    rw [List.perm_iff_count] at *
    intro a
    have := first a
    have := second a
    have := parent a
    simp only [List.count_append, List.count_cons] at *
    omega
  · rw [kvs_withChild, contents]
    refine evolve.append (Evolve.of_quiet fun e member => ?_)
    have store : ∀ a, e.target = some a → a ∈ Set.range cells ∧ a ∉ V := by
      intro a target
      obtain ⟨i, _, here⟩ := built.mem_allocs (built.stores e member a target)
      refine ⟨⟨_, here⟩, fun visible => ?_⟩
      rcases seen a visible with old | new
      · exact sub.fresh a old ⟨_, here⟩
      · obtain ⟨j, bound, here'⟩ := upd.mem_allocs new
        have index := built.distinct (here.trans here'.symm)
        simp only [St.emit_used] at index
        omega
    cases e with
    | link d' b q => exact store b rfl
    | kv b x => exact store b rfl
    | size | alloc | free => trivial
    | root q => exact absurd member (built.noRoot q)
  · intro a member
    rw [allocs_append, List.mem_append]
    exact (seen a member).imp_right Or.inl

theorem inPlace_node {h : Heap} {cur : Addr} {c₀ c q : Option Addr} {k n : Nat} {x : Kv}
    (before : h cur = ⟨d.fst c₀ q, d.snd c₀ q, k, x⟩) :
    applyAll h ((if c₀ ≠ c then [.link d cur c] else []) ++ [.size cur n]) cur = ⟨d.fst c q, d.snd c q, n, x⟩ := by
  by_cases change : c₀ ≠ c
  · rw [if_pos change]
    cases d <;> simp [applyAll, Event.apply, modify, Node.setChild, Side.fst, Side.snd, before]
  · rw [if_neg change]
    rw [not_not] at change
    simp [applyAll, Event.apply, modify, before, change]

/-- **One level up, in place**: one visible store links the new child in. -/
theorem Updated.parent_inPlace (upd : Updated cells s u es u') (distinct : Function.Injective cells)
    (sub : Subtree cells s (withChild d p u o)) (small : u'.numNodes + o.numNodes + 1 < sizeLimit) :
    ∃ es', balancedInPlace p.1 (d.fst (ptr u') (ptr o)) (d.snd (ptr u') (ptr o)) d (s.emit es) =
        some (p.1, s.emit (es ++ es')) ∧ Updated cells s (withChild d p u o) (es ++ es') (withChild d p u' o) := by
  obtain ⟨V, tn, evolve, seen, shapeN, same⟩ := upd.visible_parent sub
  have other := upd.holds_other sub
  have here : (s.emit es).heap p.1 = ⟨d.fst (ptr u) (ptr o), d.snd (ptr u) (ptr o), u.numNodes + o.numNodes + 1, p.2⟩ :=
    (upd.outside sub (Or.inl rfl)).2.2.trans (holds_withChild.mp sub.holds).1
  have child : ((s.emit es).heap p.1).child d = ptr u := by rw [here]; cases d <;> rfl
  have otherChild : ((s.emit es).heap p.1).child d.other = ptr o := by rw [here]; cases d <;> rfl
  have size : unsigned (int (int (1 + heapSize (s.emit es).heap (d.fst (ptr u') (ptr o))) +
      heapSize (s.emit es).heap (d.snd (ptr u') (ptr o)))) = u'.numNodes + o.numNodes + 1 := by
    have sizeU := heapSize_ptr upd.holds (by omega)
    have sizeO := heapSize_ptr other (by omega)
    simp only [sizeLimit] at small
    cases d
    · simp only [Side.fst, Side.snd, St.emit_heap] at *
      rw [sizeU, sizeO, int_eq (x := 1 + (u'.numNodes : Int)) (by omega) (by omega), int_eq (by omega) (by omega),
        unsigned]
      omega
    · simp only [Side.fst, Side.snd, St.emit_heap] at *
      rw [sizeU, sizeO, int_eq (x := 1 + (o.numNodes : Int)) (by omega) (by omega), int_eq (by omega) (by omega),
        unsigned]
      omega
  have apartU : p.1 ∉ addrs u' := fun member =>
    (upd.mem member).elim (upd.outside sub (Or.inl rfl)).1 (upd.outside sub (Or.inl rfl)).2.1
  have nodup : (addrs (withChild d p u' o)).Nodup := by
    obtain ⟨_, nodupO, _, apartO, _⟩ := nodup_withChild.mp sub.nodup
    refine nodup_withChild.mpr ⟨upd.nodup_result distinct sub.child, nodupO, apartU, apartO, fun a child inside => ?_⟩
    have outside := upd.outside sub (Or.inr inside)
    exact (upd.mem child).elim outside.1 outside.2.1
  have run := balancedInPlace_run (c := ptr u') otherChild
  rw [child, size, St.emit_emit] at run
  generalize events : ((if ptr u ≠ ptr u' then [Event.link d p.1 (ptr u')] else []) ++
    [Event.size p.1 (u'.numNodes + o.numNodes + 1)]) = es' at run
  have target : ∀ e ∈ es', ∀ a, e.target = some a → a = p.1 := by
    intro e member a store
    rw [← events] at member
    split_ifs at member
    · simp only [List.cons_append, List.nil_append, List.mem_cons, List.not_mem_nil, or_false] at member
      rcases member with rfl | rfl <;> exact (Option.some.inj store).symm
    · simp only [List.nil_append, List.mem_cons, List.not_mem_nil, or_false] at member
      rcases member with rfl
      exact (Option.some.inj store).symm
  have noAlloc : allocs es' = [] := by rw [← events]; split_ifs <;> rfl
  have noFree : frees es' = [] := by rw [← events]; split_ifs <;> rfl
  have frame : ∀ a, a ≠ p.1 → applyAll (applyAll s.heap es) es' a = applyAll s.heap es a := fun a away =>
    applyAll_of_ne _ fun e member store => away (target e member a store)
  refine ⟨es', run, ?_, ?_, ?_, ?_, V ∪ {a | a ∈ addrs (withChild d p u' o)}, withChild d p u' o, ?_, ?_⟩
  · simpa [noAlloc] using upd.supply
  · intro e member a store
    rw [allocs_append, noAlloc, List.append_nil]
    rcases List.mem_append.mp member with first | second
    · exact (upd.stores e first a store).imp_left fun old => mem_addrs_withChild.mpr (Or.inr (Or.inl old))
    · exact Or.inl (mem_addrs_withChild.mpr (Or.inl (target e second a store)))
  · rw [applyAll_append]
    refine holds_withChild.mpr ⟨?_, ?_, ?_⟩
    · rw [← events]
      exact inPlace_node here
    · exact upd.holds.frame fun a member => frame a fun same => apartU (same ▸ member)
    · exact other.frame fun a member => frame a fun same => (nodup_withChild.mp sub.nodup).2.2.2.1 (same ▸ member)
  · have first := upd.nodes
    have old : (addrs (withChild d p u o)).Perm (p.1 :: (addrs u ++ addrs o)) := by
      cases d <;> simp only [withChild, Side.fst, Side.snd, addrs_node] <;> grind
    have new : (addrs (withChild d p u' o)).Perm (p.1 :: (addrs u' ++ addrs o)) := by
      cases d <;> simp only [withChild, Side.fst, Side.snd, addrs_node] <;> grind
    simp only [allocs_append, frees_append, noAlloc, noFree, List.append_nil]
    rw [List.perm_iff_count] at *
    intro a
    have := first a
    have := old a
    have := new a
    simp only [List.count_append, List.count_cons] at *
    omega
  · rw [kvs_withChild, kvs_withChild]
    refine evolve.append ?_
    rw [← events]
    by_cases change : ptr u ≠ ptr u'
    · rw [if_pos change]
      refine .publish .here upd.holds.shape nodup (Or.inr (kvs_withChild _ _ _ _)) (.quiet trivial .done)
    · -- the pointer is the old one, so what it points to is already linked in
      rw [if_neg change]
      rw [not_not] at change
      have linked : tn = u' := shapeN.unique upd.holds.shape (same.trans change)
      subst linked
      have inside := (evolve.shape sub.holds.shape fun a member => member).2
      have union : V ∪ {a | a ∈ addrs (withChild d p tn o)} = V := Set.union_eq_left.mpr fun a member => inside a member
      rw [union]
      exact .quiet trivial .done
  · intro a member
    rw [allocs_append, noAlloc, List.append_nil]
    rcases member with visible | linked
    · exact seen a visible
    · rcases mem_addrs_withChild.mp linked with isRoot | child | inside
      · exact Or.inl (mem_addrs_withChild.mpr (Or.inl isRoot))
      · exact (upd.mem child).imp_left fun old => mem_addrs_withChild.mpr (Or.inr (Or.inl old))
      · exact Or.inl (mem_addrs_withChild.mpr (Or.inr (Or.inr inside)))

theorem ptr_fst (d : Side) (c o : Tree) : ptr (d.fst c o) = d.fst (ptr c) (ptr o) := by
  cases d <;> rfl

theorem ptr_snd (d : Side) (c o : Tree) : ptr (d.snd c o) = d.snd (ptr c) (ptr o) := by
  cases d <;> rfl

/-- **One level up.** -/
theorem Updated.parent (upd : Updated cells s u es u') (distinct : Function.Injective cells)
    (sub : Subtree cells s (withChild d p u o)) (small : u'.numNodes + o.numNodes + 1 < sizeLimit) :
    ∃ t' c es', mkBalanced cells p.1 (d.fst (ptr u') (ptr o)) (d.snd (ptr u') (ptr o)) d true (s.emit es) =
        some (c, s.emit (es ++ es')) ∧ ptr t' = some c ∧
      erase t' = balance weight p.2 (erase (d.fst u' o)) (erase (d.snd u' o)) ∧
      Updated cells s (withChild d p u o) (es ++ es') t' := by
  have b := upd.building distinct sub
  have element : (((s.emit es).emit []).heap p.1).kv = p.2 := by
    rw [St.emit_nil, (upd.outside sub (Or.inl rfl)).2.2, (holds_withChild.mp sub.holds).1]
  have sizes : (d.fst u' o).numNodes + (d.snd u' o).numNodes + 1 < sizeLimit := by
    cases d <;> simp only [Side.fst, Side.snd] <;> omega
  rw [← ptr_fst, ← ptr_snd]
  by_cases balanced : BalancedSizes (d.fst u' o).numNodes (d.snd u' o).numNodes
  · obtain ⟨es', run, updated⟩ := upd.parent_inPlace distinct sub small
    refine ⟨withChild d p u' o, p.1, es', ?_, ptr_withChild _ _ _ _, ?_, updated⟩
    · have left := b.holds (d.fst u' o) (by simp)
      have right := b.holds (d.snd u' o) (by simp)
      rw [mkBalanced_eq left right sizes, ← ptr_fst, ← ptr_snd] at *
      simp only [if_true]
      unfold BalancedSizes at balanced
      split_ifs with tiny heavyR heavyL
      · exact run
      · omega
      · omega
      · exact run
    · unfold BalancedSizes at balanced
      simp only [balance, numNodes_erase]
      split_ifs with tiny heavyR heavyL
      · rfl
      · omega
      · omega
      · rfl
  · obtain ⟨t', c, es', run, isRoot, erased, built⟩ :=
      mkBalanced_builds b element sizes d true fun _ => balanced
    rw [St.emit_nil, St.emit_emit] at run
    refine ⟨t', c, es', run, isRoot, erased, upd.parent_rotated sub ?_ built⟩
    rw [kvs_balance erased]
    cases d <;> rfl

end Parent

/-- A subtree built anew, with no visible store. -/
theorem Updated.of_built (sub : Subtree cells s t) (built : Building cells s (addrs t) es [t'] []) :
    Updated cells s t es t' where
  supply := built.supply
  stores := fun e member a target => Or.inr (built.stores e member a target)
  holds := built.holds t' (List.mem_singleton_self _)
  nodes := by simpa using built.nodes
  visible := by
    refine ⟨_, t, Evolve.of_quiet fun e member => ?_, fun a member => Or.inl member⟩
    have store : ∀ a, e.target = some a → a ∈ Set.range cells ∧ a ∉ {a | a ∈ addrs t} := by
      intro a target
      obtain ⟨i, _, here⟩ := built.mem_allocs (built.stores e member a target)
      exact ⟨⟨_, here⟩, fun old => sub.fresh a old ⟨_, here⟩⟩
    cases e with
    | link d' b q => exact store b rfl
    | kv b x => exact store b rfl
    | size | alloc | free => trivial
    | root q => exact absurd member (built.noRoot q)

/-- **`insert`** on a subtree in memory. -/
theorem insert_updates (distinct : Function.Injective cells) (kv : Kv) :
    ∀ (t : Tree) (fuel : Nat), Subtree cells s t →
      (Lib.SearchTree.insert Kv.key weight kv (erase t)).numNodes < sizeLimit → t.numNodes < fuel →
      ∃ t' es, insert cells fuel (ptr t) kv s = some (ptr t', s.emit es) ∧ Updated cells s t es t' ∧
        erase t' = Lib.SearchTree.insert Kv.key weight kv (erase t) := by
  intro t
  induction t with
  | nil =>
    intro fuel sub small deep
    obtain ⟨fuel, rfl⟩ : ∃ n, fuel = n + 1 := ⟨fuel - 1, by omega⟩
    have start : Building cells s [] [] [nil, nil] [] :=
      Building.start distinct (by simp [Holds]) (by simp) (by simp)
    obtain ⟨c, es, run, built⟩ := start.mkNode kv small
    rw [St.emit_nil, ptr_nil] at run
    refine ⟨node (c, kv) nil nil, es, ?_, .of_built sub built, rfl⟩
    rw [ptr_nil, insert, bind_run run]
    rfl
  | node p l r ihl ihr =>
    intro fuel sub small deep
    obtain ⟨fuel, rfl⟩ : ∃ n, fuel = n + 1 := ⟨fuel - 1, by omega⟩
    simp only [numNodes] at deep
    rw [ptr_node, insert, bind_run (rfl : load p.1 s = _), sub.holds.1]
    simp only [Lib.SearchTree.insert, erase_node] at small ⊢
    split_ifs at small ⊢ with less greater
    · rw [numNodes_balance, numNodes_erase] at small
      obtain ⟨l', es, run, upd, erased⟩ := ihl fuel (Subtree.child (d := .left) sub) (by omega) (by omega)
      rw [← erased, numNodes_erase] at small
      obtain ⟨t', c, es', run', isRoot, erased', upd'⟩ := upd.parent (d := .left) distinct sub small
      simp only [Side.fst, Side.snd] at run' erased'
      refine ⟨t', es ++ es', ?_, upd', by rw [erased', erased]⟩
      rw [bind_run run, bind_run run', isRoot]
      rfl
    · rw [numNodes_balance, numNodes_erase] at small
      obtain ⟨r', es, run, upd, erased⟩ := ihr fuel (Subtree.child (d := .right) sub) (by omega) (by omega)
      rw [← erased, numNodes_erase] at small
      obtain ⟨t', c, es', run', isRoot, erased', upd'⟩ := upd.parent (d := .right) distinct sub (by omega)
      simp only [Side.fst, Side.snd] at run' erased'
      refine ⟨t', es ++ es', ?_, upd', by rw [erased', erased]⟩
      rw [bind_run run, bind_run run', isRoot]
      rfl
    · refine ⟨node p l r, [], by rw [St.emit_nil]; rfl, .of_built sub ?_, rfl⟩
      exact Building.start distinct (by simpa using sub.holds) (by simp) fun a member i _ same => sub.fresh a member ⟨i, same⟩

/-- `delete` of the root of a subtree: its children are joined. -/
theorem delete_root {p : Addr × Kv} {l r : Tree} (distinct : Function.Injective cells)
    (sub : Subtree cells s (node p l r)) (small : l.numNodes + r.numNodes + 1 < sizeLimit) (key : Nat) {fuel : Nat}
    (deep : l.numNodes + r.numNodes < fuel) (here : key = p.2.key) :
    ∃ t' es, delete cells (fuel + 1) (some p.1) key s = some ((ptr t', p.2.value), s.emit es) ∧
      Building cells s (addrs (node p l r)) es [t'] [] ∧ erase t' = join weight (erase l) (erase r) := by
  have start : Building cells s (addrs (node p l r)) [] [node p l r] [] :=
    Building.start distinct (by simpa using sub.holds) (by simp) fun a member i _ same => sub.fresh a member ⟨i, same⟩
  have freed := start.split.free
  rw [delete, bind_run (rfl : load p.1 s = _), sub.holds.1]
  simp only [here, lt_irrefl, if_false]
  rw [bind_run (rfl : treeBBFreeNode p.1 s = _)]
  cases l with
  | nil => exact ⟨r, _, rfl, freed.dropNil, rfl⟩
  | node q ll lr =>
    cases r with
    | nil => exact ⟨node q ll lr, _, rfl, (freed.perm (List.Perm.swap _ _ _) List.Perm.rfl).dropNil, rfl⟩
    | node m rl rr =>
      simp only [ptr_node]
      simp only [numNodes] at small deep
      -- the two subtrees, seen from the state after the root was freed
      have avoid : ∀ a ∈ addrs (node p (node q ll lr) (node m rl rr)), ∀ i, cells i ≠ a := fun a member i same =>
        sub.fresh a member ⟨i, same⟩
      have parts : ∀ a ∈ addrs (node m rl rr) ++ addrs (node q ll lr),
          a ∈ addrs (node p (node q ll lr) (node m rl rr)) := by
        intro a member
        simp only [addrs_node, List.mem_append, List.mem_cons] at member ⊢
        grind
      have again : Building cells (s.emit [.free p.1]) (addrs (node m rl rr) ++ addrs (node q ll lr)) []
          [node m rl rr, node q ll lr] [] := by
        refine Building.start distinct ?_ (by simp) fun a member i _ => avoid a (parts a member) i
        simp only [List.mem_cons, List.not_mem_nil, or_false]
        rintro t (rfl | rfl)
        · exact sub.holds.2.2
        · exact sub.holds.2.1
      obtain ⟨r', min, es₁, run₁, b₁, isOld, minimum, rest⟩ :=
        deleteMin_builds m rl rr [] [node q ll lr] fuel again (by omega) (by omega)
      have size : r'.numNodes = rl.numNodes + rr.numNodes := by
        have same := congrArg List.length (inorder_deleteMin (w := weight) m.2 (erase rl) (erase rr))
        rw [← rest] at same
        simp at same
        omega
      obtain ⟨t', c, es₂, run₂, isRoot, erased, b₂⟩ := mkBalanced_builds
        (b₁.perm (List.Perm.swap _ _ _) List.Perm.rfl) (by rw [b₁.heap_old isOld, minimum]) (by simp only [numNodes]; omega)
        .right false (by simp)
      refine ⟨t', .free p.1 :: es₂, ?_, ?_, ?_⟩
      · rw [bind_run run₁]
        simp only
        rw [ptr_node] at run₂
        rw [bind_run run₂, isRoot, St.emit_emit]
        rfl
      · refine (b₂.after_free fun i _ => avoid p.1 (by simp) i).old_perm ?_
        simp only [addrs_node]
        grind
      · rw [erased, rest]
        rfl

/-- What `*deleted` is set to. -/
def deletedValue (key : Nat) (t : BinaryTree Kv) : Nat := ((search Kv.key key t).map Kv.value).getD 0

/-- **`delete`** on a subtree in memory. -/
theorem delete_updates (distinct : Function.Injective cells) (key : Nat) :
    ∀ (t : Tree) (fuel : Nat), Subtree cells s t → t.numNodes < sizeLimit → t.numNodes < fuel →
      ∃ t' es, delete cells fuel (ptr t) key s = some ((ptr t', deletedValue key (erase t)), s.emit es) ∧
        Updated cells s t es t' ∧ erase t' = Lib.SearchTree.delete Kv.key weight key (erase t) := by
  intro t
  induction t with
  | nil =>
    intro fuel sub small deep
    obtain ⟨fuel, rfl⟩ : ∃ n, fuel = n + 1 := ⟨fuel - 1, by omega⟩
    refine ⟨nil, [], by rw [St.emit_nil]; rfl, .of_built sub ?_, rfl⟩
    exact Building.start distinct (by simp [Holds]) (by simp) (by simp)
  | node p l r ihl ihr =>
    intro fuel sub small deep
    obtain ⟨fuel, rfl⟩ : ∃ n, fuel = n + 1 := ⟨fuel - 1, by omega⟩
    simp only [numNodes] at small deep
    rcases Nat.lt_trichotomy key p.2.key with less | same | greater
    · obtain ⟨l', es, run, upd, erased⟩ := ihl fuel (Subtree.child (d := .left) sub) (by omega) (by omega)
      have size : l'.numNodes ≤ l.numNodes := by
        rw [← numNodes_erase, erased, ← numNodes_erase l]
        exact numNodes_delete_le _ _
      obtain ⟨t', c, es', run', isRoot, erased', upd'⟩ := upd.parent (d := .left) distinct sub (by omega)
      simp only [Side.fst, Side.snd] at run' erased'
      refine ⟨t', es ++ es', ?_, upd', ?_⟩
      · rw [ptr_node, delete, bind_run (rfl : load p.1 s = _), sub.holds.1]
        simp only [if_pos less]
        rw [bind_run run]
        simp only
        rw [bind_run run', isRoot]
        simp only [deletedValue, erase_node, search, if_neg (Nat.ne_of_gt less), if_pos less]
        rfl
      · simp only [erase_node, Lib.SearchTree.delete, if_pos less]
        rw [erased', erased]
    · obtain ⟨t', es, run, built, erased⟩ := delete_root distinct sub small key (Nat.lt_of_succ_lt_succ deep) same
      refine ⟨t', es, ?_, .of_built sub built, ?_⟩
      · rw [ptr_node, run]
        simp [deletedValue, search, same]
      · rw [erased]
        simp [Lib.SearchTree.delete, same]
    · obtain ⟨r', es, run, upd, erased⟩ := ihr fuel (Subtree.child (d := .right) sub) (by omega) (by omega)
      have size : r'.numNodes ≤ r.numNodes := by
        rw [← numNodes_erase, erased, ← numNodes_erase r]
        exact numNodes_delete_le _ _
      obtain ⟨t', c, es', run', isRoot, erased', upd'⟩ := upd.parent (d := .right) distinct sub (by omega)
      simp only [Side.fst, Side.snd] at run' erased'
      have notLess : ¬ key < p.2.key := Nat.lt_asymm greater
      refine ⟨t', es ++ es', ?_, upd', ?_⟩
      · rw [ptr_node, delete, bind_run (rfl : load p.1 s = _), sub.holds.1]
        simp only [if_neg notLess, gt_iff_lt, if_pos greater]
        rw [bind_run run]
        simp only
        rw [bind_run run', isRoot]
        simp only [deletedValue, erase_node, search, if_neg (Nat.ne_of_lt greater), if_neg notLess]
        rfl
      · simp only [erase_node, Lib.SearchTree.delete, if_neg notLess, if_pos greater]
        rw [erased', erased]

end

end BiProject.RbTree
