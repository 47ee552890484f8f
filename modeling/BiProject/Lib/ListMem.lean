import Mathlib.Data.List.Cycle

/-!
# Lists in a word memory

A memory maps the address of an eight-byte field to its contents. Two kinds of lists live in it: rings
of nodes whose first two words link them both ways, and chains of cells that are cut off by a count
and not by a null pointer, so that the link of their last cell may hold anything.
-/

namespace BiProject.Lib.ListMem
set_option autoImplicit false

abbrev Mem := Nat → Nat

def store (m : Mem) (a v : Nat) : Mem := fun x => if x = a then v else m x

@[simp] theorem store_same (m : Mem) (a v : Nat) : store m a v a = v := if_pos rfl

theorem store_other {m : Mem} {a v x : Nat} (other : x ≠ a) : store m a v x = m x := if_neg other

/-! ## Rings -/

/-- Makes the node at `l` a ring of its own. -/
def selfLink (m : Mem) (l : Nat) : Mem := store (store m (l + 8) l) l l

/-- Links the node at `n` in behind the one at `l`. -/
def linkAfter (m : Mem) (l n : Nat) : Mem :=
  let m := store m n (m l)
  let m := store m (n + 8) l
  let m := store m l n
  store m (m n + 8) n

/-- Takes the node at `l` out of its ring. -/
def unlink (m : Mem) (l : Nat) : Mem :=
  let m := store m (m l + 8) (m (l + 8))
  let m := store m (m (l + 8)) (m l)
  store (store m l l) (l + 8) l

/-- Where the nodes are; the words of different nodes are different ones. -/
structure Nodes (α : Type) where
  addr : α → Nat
  inj : Function.Injective addr
  apart : ∀ a b, addr a ≠ addr b + 8

section Rings
variable {α : Type} (N : Nodes α)

/-- The two pointers between neighbours. -/
structure Linked (m : Mem) (a b : α) : Prop where
  next : m (N.addr a) = N.addr b
  prev : m (N.addr b + 8) = N.addr a

/-- The nodes `xs`, in this order, are a ring. -/
structure Ring (m : Mem) (xs : List α) : Prop where
  chain : (xs : Cycle α).Chain (Linked N m)
  nodup : xs.Nodup

variable {N} {m m' : Mem} {l n : α} {xs ys : List α}

/-- The words of the nodes `xs` are as they were. -/
def SameAt (N : Nodes α) (m m' : Mem) (xs : List α) : Prop :=
  ∀ a ∈ xs, m' (N.addr a) = m (N.addr a) ∧ m' (N.addr a + 8) = m (N.addr a + 8)

/-- A chain reads the forward links of all its nodes but the last and the backward links of all but
the first. -/
theorem chain_frame (chain : xs.IsChain (Linked N m)) (next : ∀ a ∈ xs.dropLast, m' (N.addr a) = m (N.addr a))
    (prev : ∀ a ∈ xs.tail, m' (N.addr a + 8) = m (N.addr a + 8)) : xs.IsChain (Linked N m') := by
  induction chain with
  | nil => exact .nil
  | singleton a => exact .singleton a
  | @cons_cons a b rest link chain ih =>
    refine .cons_cons ⟨?_, ?_⟩ (ih ?_ ?_)
    · rw [next a (by simp)]
      exact link.next
    · rw [prev b (by simp)]
      exact link.prev
    · exact fun c member => next c (by simpa using Or.inr member)
    · exact fun c member => prev c (by simpa using Or.inr member)

theorem Ring.frame (ring : Ring N m xs) (same : SameAt N m m' xs) : Ring N m' xs := by
  refine ⟨?_, ring.nodup⟩
  cases xs with
  | nil => trivial
  | cons a rest =>
    have inside : ∀ b ∈ a :: (rest ++ [a]), b ∈ a :: rest := by
      intro b member
      simp only [List.mem_cons, List.mem_append, List.not_mem_nil, or_false] at member ⊢
      rcases member with here | later | here
      · exact Or.inl here
      · exact Or.inr later
      · exact Or.inl here
    refine chain_frame ring.chain (fun b member => ?_) (fun b member => ?_)
    · exact (same b (inside b (List.mem_of_mem_dropLast member))).1
    · exact (same b (inside b (List.mem_of_mem_tail member))).2

/-- A ring has no first node. -/
theorem Ring.rotate (ring : Ring N m (l :: xs)) : Ring N m (xs ++ [l]) := by
  refine ⟨?_, ?_⟩
  · rw [← Cycle.coe_cons_eq_coe_append]
    exact ring.chain
  · exact (List.perm_append_singleton l xs).symm.nodup_iff.mp ring.nodup

theorem Ring.rotate_iff : Ring N m (ys ++ xs) ↔ Ring N m (xs ++ ys) := by
  have one : ∀ xs ys : List α, Ring N m (ys ++ xs) → Ring N m (xs ++ ys) := by
    intro xs ys ring
    induction ys generalizing xs with
    | nil => simpa using ring
    | cons y rest ih =>
      have turned := ih (xs ++ [y]) (by simpa using ring.rotate)
      simpa using turned
  exact ⟨one xs ys, one ys xs⟩

theorem selfLink_other {x : Nat} (next : x ≠ N.addr l) (prev : x ≠ N.addr l + 8) : selfLink m (N.addr l) x = m x := by
  rw [selfLink, store_other next, store_other prev]

theorem ring_selfLink : Ring N (selfLink m (N.addr l)) [l] := by
  refine ⟨?_, List.nodup_singleton l⟩
  rw [Cycle.chain_singleton]
  refine ⟨store_same _ _ _, ?_⟩
  rw [selfLink, store_other (N.apart l l).symm, store_same]

/-- The node behind `l`. -/
theorem Ring.next (ring : Ring N m (l :: xs)) : m (N.addr l) = N.addr ((xs ++ [l]).head (by simp)) := by
  have chain := ring.chain
  rw [Cycle.chain_coe_cons] at chain
  cases xs with
  | nil => exact (List.isChain_cons_cons.mp chain).1.next
  | cons y rest => exact (List.isChain_cons_cons.mp chain).1.next

/-- The node before `l`. -/
theorem Ring.prev (ring : Ring N m (l :: xs)) : m (N.addr l + 8) = N.addr ((l :: xs).getLast (by simp)) := by
  have chain := ring.chain
  rw [Cycle.chain_coe_cons] at chain
  obtain ⟨front, last, split⟩ : ∃ front last, l :: xs = front ++ [last] :=
    ⟨_, _, (List.dropLast_append_getLast (List.cons_ne_nil l xs)).symm⟩
  have turned : l :: (xs ++ [l]) = front ++ last :: [l] := by
    rw [← List.cons_append, split, List.append_assoc]
    rfl
  rw [turned, List.isChain_append_cons_cons] at chain
  simp only [split, List.getLast_append_singleton]
  exact chain.2.1.prev

/-- A node alone in its ring is its own neighbour, and no other one is. -/
theorem Ring.singleton_iff (ring : Ring N m (l :: xs)) : m (N.addr l) = N.addr l ↔ xs = [] := by
  rw [ring.next]
  cases xs with
  | nil => simp
  | cons y rest =>
    simp only [List.cons_append, List.head_cons, reduceCtorEq, iff_false]
    intro same
    exact (List.nodup_cons.mp ring.nodup).1 (by simp [N.inj same])

/-- How the words of two nodes compare. -/
theorem Nodes.next_eq_next (a b : α) : N.addr a = N.addr b ↔ a = b := N.inj.eq_iff

theorem Nodes.next_eq_prev (a b : α) : (N.addr a = N.addr b + 8) = False := eq_false (N.apart a b)

theorem Nodes.prev_eq_next (a b : α) : (N.addr a + 8 = N.addr b) = False := eq_false (N.apart b a).symm

theorem Nodes.prev_eq_prev (a b : α) : N.addr a + 8 = N.addr b + 8 ↔ a = b := by
  rw [Nat.add_right_cancel_iff, N.inj.eq_iff]

/-- The stores of `linkAfter`, with the node `y` that was behind `l`. -/
theorem Ring.linkAfter_eq (ring : Ring N m (l :: xs)) (new : n ∉ l :: xs) :
    linkAfter m (N.addr l) (N.addr n) =
      store (store (store (store m (N.addr n) (N.addr ((xs ++ [l]).head (by simp)))) (N.addr n + 8) (N.addr l))
        (N.addr l) (N.addr n)) (N.addr ((xs ++ [l]).head (by simp)) + 8) (N.addr n) := by
  have other : N.addr n ≠ N.addr l := fun same => new (by simp [N.inj same])
  simp only [linkAfter]
  rw [store_other other, store_other (N.apart n n), store_same, ring.next]

theorem Ring.head_mem (_ : Ring N m (l :: xs)) : (xs ++ [l]).head (by simp) ∈ l :: xs := by
  have member := List.head_mem (l := xs ++ [l]) (by simp)
  simp only [List.mem_append, List.mem_cons, List.not_mem_nil, or_false] at member ⊢
  exact member.symm

theorem linkAfter_other {x : Nat} (ring : Ring N m (l :: xs)) (new : n ∉ l :: xs)
    (away : ∀ a ∈ n :: l :: xs, x ≠ N.addr a ∧ x ≠ N.addr a + 8) : linkAfter m (N.addr l) (N.addr n) x = m x := by
  rw [ring.linkAfter_eq new, store_other (away _ (List.mem_cons_of_mem n ring.head_mem)).2,
    store_other (away l (by simp)).1, store_other (away n (by simp)).2, store_other (away n (by simp)).1]

theorem Ring.linkAfter (ring : Ring N m (l :: xs)) (new : n ∉ l :: xs) :
    Ring N (linkAfter m (N.addr l) (N.addr n)) (l :: n :: xs) := by
  have notSelf : n ≠ l := fun same => new (by simp [same])
  have notIn : n ∉ xs := fun member => new (by simp [member])
  obtain ⟨notLater, nodup⟩ := List.nodup_cons.mp ring.nodup
  refine ⟨?_, ?_⟩
  · rw [ring.linkAfter_eq new, Cycle.chain_coe_cons]
    have chain := ring.chain
    rw [Cycle.chain_coe_cons] at chain
    obtain ⟨y, rest, split⟩ : ∃ y rest, xs ++ [l] = y :: rest := List.exists_cons_of_ne_nil (by simp)
    have member : ∀ a ∈ xs ++ [l], a ≠ n := by
      rintro a inside rfl
      simp [notIn, notSelf] at inside
    have distinct : (y :: rest).Nodup := by
      rw [← split]
      exact ring.rotate.nodup
    have front : ∀ a ∈ (y :: rest).dropLast, a ≠ l := by
      rw [← split, List.dropLast_concat]
      rintro a inside rfl
      exact notLater inside
    simp only [List.cons_append, split, List.head_cons]
    rw [split] at chain member
    -- only the backward link of `y` and the forward link of `l` are stored to, and this stretch reads neither
    refine .cons_cons ⟨?_, ?_⟩ (.cons_cons ⟨?_, ?_⟩ (chain_frame chain.tail (fun a inside => ?_) fun a inside => ?_))
    · simp [store, N.next_eq_prev]
    · simp [store, N.prev_eq_next, N.next_eq_next, (member y (by simp)).symm]
    · simp [store, N.next_eq_prev, N.next_eq_next, notSelf]
    · simp [store]
    · have other := member a (List.mem_of_mem_dropLast inside)
      simp [store, N.next_eq_prev, N.next_eq_next, other, front a inside]
    · have other := member a (List.mem_of_mem_tail inside)
      have later : a ≠ y := by
        rintro rfl
        exact (List.nodup_cons.mp distinct).1 inside
      simp [store, N.prev_eq_next, N.next_eq_next, other, later]
  · refine List.nodup_cons.mpr ⟨?_, List.nodup_cons.mpr ⟨notIn, nodup⟩⟩
    simp [notSelf.symm, notLater]

/-- The stores of `unlink` in a ring of more than one node, between the neighbours `z` and `y`. -/
theorem Ring.unlink_eq {y : α} (ring : Ring N m (l :: y :: ys)) :
    unlink m (N.addr l) =
      store (store (store (store m (N.addr y + 8) (N.addr ((y :: ys).getLast (by simp))))
        (N.addr ((y :: ys).getLast (by simp))) (N.addr y)) (N.addr l) (N.addr l)) (N.addr l + 8) (N.addr l) := by
  have other : l ≠ y := by
    rintro rfl
    exact (List.nodup_cons.mp ring.nodup).1 (by simp)
  have next := ring.next
  have prev := ring.prev
  simp only [List.cons_append, List.head_cons] at next
  rw [List.getLast_cons (by simp)] at prev
  have behind : store m (N.addr y + 8) (m (N.addr l + 8)) (N.addr l + 8) = N.addr ((y :: ys).getLast (by simp)) := by
    rw [store_other (fun same => other ((N.prev_eq_prev l y).mp same)), prev]
  have ahead : store m (N.addr y + 8) (m (N.addr l + 8)) (N.addr l) = N.addr y := by
    rw [store_other (N.apart l y), next]
  simp only [unlink, next, behind, ahead]
  rw [prev]

theorem unlink_singleton (ring : Ring N m [l]) : unlink m (N.addr l) = m := by
  have next : m (N.addr l) = N.addr l := ring.next
  have prev : m (N.addr l + 8) = N.addr l := ring.prev
  have unchanged : ∀ {a v : Nat}, m a = v → store m a v = m := by
    intro a v same
    funext x
    by_cases here : x = a
    · rw [here, store_same, same]
    · rw [store_other here]
  simp only [unlink, next, prev, unchanged]

theorem unlink_other {x : Nat} (ring : Ring N m (l :: xs)) (away : ∀ a ∈ l :: xs, x ≠ N.addr a ∧ x ≠ N.addr a + 8) :
    unlink m (N.addr l) x = m x := by
  cases xs with
  | nil => rw [unlink_singleton ring]
  | cons y ys =>
    have last : (y :: ys).getLast (by simp) ∈ l :: y :: ys := List.mem_cons_of_mem l (List.getLast_mem _)
    rw [ring.unlink_eq, store_other (away l (by simp)).2, store_other (away l (by simp)).1,
      store_other (away _ last).1, store_other (away y (by simp)).2]

theorem Ring.unlink_self (ring : Ring N m (l :: xs)) : Ring N (unlink m (N.addr l)) [l] := by
  cases xs with
  | nil => rwa [unlink_singleton ring]
  | cons y ys =>
    refine ⟨?_, List.nodup_singleton l⟩
    rw [Cycle.chain_singleton, ring.unlink_eq]
    exact ⟨by simp [store], by simp [store]⟩

theorem Ring.unlink (ring : Ring N m (l :: xs)) : Ring N (unlink m (N.addr l)) xs := by
  cases xs with
  | nil => exact ⟨trivial, List.nodup_nil⟩
  | cons y ys =>
    obtain ⟨notLater, nodup⟩ := List.nodup_cons.mp ring.nodup
    refine ⟨?_, nodup⟩
    rw [ring.unlink_eq, Cycle.chain_coe_cons]
    have chain := ring.chain
    rw [Cycle.chain_coe_cons] at chain
    obtain ⟨front, z, split⟩ : ∃ front z, y :: ys = front ++ [z] :=
      ⟨_, _, (List.dropLast_append_getLast (List.cons_ne_nil y ys)).symm⟩
    have old : l :: (y :: ys ++ [l]) = l :: (front ++ z :: [l]) := by
      rw [split, List.append_assoc]
      rfl
    have new : y :: (ys ++ [y]) = front ++ z :: [y] := by
      rw [← List.cons_append, split, List.append_assoc]
      rfl
    have last : (y :: ys).getLast (by simp) = z := by simp [split]
    rw [old, List.isChain_cons_append_cons_cons] at chain
    rw [new, last, List.isChain_append_cons_cons]
    rw [split] at notLater nodup
    have away : ∀ a ∈ front ++ [z], a ≠ l := by
      rintro a inside rfl
      exact notLater inside
    refine ⟨chain_frame chain.1.tail (fun a inside => ?_) (fun a inside => ?_), ⟨?_, ?_⟩, .singleton y⟩
    · have other := away a (List.mem_of_mem_dropLast inside)
      rw [List.dropLast_concat] at inside
      have notLast : a ≠ z := by
        rintro rfl
        exact (List.nodup_append.mp nodup).2.2 a inside a (by simp) rfl
      simp [store, N.next_eq_prev, N.next_eq_next, other, notLast]
    · have other := away a (List.mem_of_mem_tail inside)
      rw [← split, List.tail_cons] at inside
      rw [← split] at nodup
      have notFirst : a ≠ y := by
        rintro rfl
        exact (List.nodup_cons.mp nodup).1 inside
      simp [store, N.prev_eq_next, N.next_eq_next, other, notFirst]
    · simp [store, N.next_eq_prev, N.next_eq_next, away z (by simp)]
    · have notFirst : y ≠ l := away y (by rw [← split]; simp)
      simp [store, N.prev_eq_next, N.next_eq_next, notFirst]

/-- A node anywhere in the ring is taken out. -/
theorem Ring.unlink_mid (ys : List α) (ring : Ring N m (ys ++ l :: xs)) :
    Ring N (ListMem.unlink m (N.addr l)) (ys ++ xs) ∧ Ring N (ListMem.unlink m (N.addr l)) [l] ∧
      ∀ x, (∀ a ∈ ys ++ l :: xs, x ≠ N.addr a ∧ x ≠ N.addr a + 8) → ListMem.unlink m (N.addr l) x = m x := by
  have turned : Ring N m (l :: (xs ++ ys)) := Ring.rotate_iff.mp ring
  refine ⟨Ring.rotate_iff.mpr turned.unlink, turned.unlink_self, fun x away => unlink_other turned fun a member => ?_⟩
  refine away a ?_
  simp only [List.mem_cons, List.mem_append] at member ⊢
  rcases member with here | later | earlier
  · exact Or.inr (Or.inl here)
  · exact Or.inr (Or.inr later)
  · exact Or.inl earlier

/-- From one node on there is one ring. -/
theorem Ring.unique (ring : Ring N m (l :: xs)) (ring' : Ring N m (l :: ys)) : xs = ys := by
  have chain := ring.chain
  have chain' := ring'.chain
  rw [Cycle.chain_coe_cons] at chain chain'
  have away := (List.nodup_cons.mp ring.nodup).1
  have away' := (List.nodup_cons.mp ring'.nodup).1
  clear ring ring'
  -- both lists are read off the forward links until `l` comes again
  suffices ∀ start, (start :: (xs ++ [l])).IsChain (Linked N m) → (start :: (ys ++ [l])).IsChain (Linked N m) → xs = ys from
    this l chain chain'
  clear chain chain'
  induction xs generalizing ys with
  | nil =>
    intro start chain chain'
    cases ys with
    | nil => rfl
    | cons y rest =>
      have same := (List.isChain_cons_cons.mp chain).1.next.symm.trans (List.isChain_cons_cons.mp chain').1.next
      exact absurd (by simp [N.inj same]) away'
  | cons x xs ih =>
    intro start chain chain'
    cases ys with
    | nil =>
      have same := (List.isChain_cons_cons.mp chain).1.next.symm.trans (List.isChain_cons_cons.mp chain').1.next
      exact absurd (by simp [N.inj same]) away
    | cons y rest =>
      obtain ⟨link, chain⟩ := List.isChain_cons_cons.mp chain
      obtain ⟨link', chain'⟩ := List.isChain_cons_cons.mp chain'
      obtain rfl : x = y := N.inj (link.next.symm.trans link'.next)
      rw [ih (fun member => away (by simp [member])) (fun member => away' (by simp [member])) x chain chain']

end Rings

/-! ## Counted chains -/

/-- From the pointer `p`, with the link of a cell at offset `off`, one reads the cells `cs`; what the link
of the last one holds is not looked at. -/
def Counted (off : Nat) (m : Mem) : Nat → List Nat → Prop
  | _, [] => True
  | p, c :: cs => p = c ∧ Counted off m (m (c + off)) cs

theorem Counted.frame {off : Nat} {m m' : Mem} {cs : List Nat} {p : Nat} (chain : Counted off m p cs)
    (same : ∀ c ∈ cs, m' (c + off) = m (c + off)) : Counted off m' p cs := by
  induction cs generalizing p with
  | nil => trivial
  | cons c rest ih =>
    refine ⟨chain.1, ?_⟩
    rw [same c (by simp)]
    exact ih chain.2 fun d member => same d (by simp [member])

/-! ## Chains that end in NULL -/

/-- From the pointer `p` one reads the cells `cs`, and then `NULL`. -/
def Chain (off : Nat) (m : Mem) : Nat → List Nat → Prop
  | p, [] => p = 0
  | p, c :: cs => p = c ∧ c ≠ 0 ∧ Chain off m (m (c + off)) cs

theorem Chain.frame {off : Nat} {m m' : Mem} {cs : List Nat} {p : Nat} (chain : Chain off m p cs)
    (same : ∀ c ∈ cs, m' (c + off) = m (c + off)) : Chain off m' p cs := by
  induction cs generalizing p with
  | nil => exact chain
  | cons c rest ih =>
    refine ⟨chain.1, chain.2.1, ?_⟩
    rw [same c (by simp)]
    exact ih chain.2.2 fun d member => same d (by simp [member])

/-- Cells one behind the other, each linked to the next and the last to a chain. -/
theorem Chain.row {off : Nat} {m : Mem} {cs : List Nat} {head size : Nat} (chain : Chain off m head cs) (k : Nat) {base : Nat}
    (pos : base ≠ 0) (links : ∀ j < k, m (base + j * size + off) = base + (j + 1) * size)
    (last : m (base + k * size + off) = head) :
    Chain off m base ((List.range (k + 1)).map (fun j => base + j * size) ++ cs) := by
  induction k generalizing base with
  | zero =>
    rw [Nat.zero_mul, Nat.add_zero] at last
    refine ⟨by simp, by simpa using pos, ?_⟩
    simpa [last] using chain
  | succ k ih =>
    have next : ∀ j, base + size + j * size = base + (j + 1) * size := fun j => by rw [Nat.succ_mul]; omega
    have rest := @ih (base + size) (by omega) (fun j bound => by rw [next, next]; exact links (j + 1) (by omega))
      (by rw [next]; exact last)
    have first := links 0 (by omega)
    rw [List.range_succ_eq_map, List.map_cons, List.map_map, List.cons_append]
    refine ⟨by simp, by simpa using pos, ?_⟩
    simp only [Nat.zero_mul, Nat.add_zero, Nat.zero_add, Nat.one_mul] at first ⊢
    rw [first]
    simpa only [next, Function.comp_def] using rest

end BiProject.Lib.ListMem
