import BiProject.TreeSmr.System

/-!
# Where the cells are

A cell of the slab is in the tree, obtained or taken out by the operation in progress, in `free_buf`, or on its way through the local
cache and the ring of node 0; and only in one of these.
-/

namespace BiProject.TreeSmr
set_option autoImplicit false
open BiProject.RbTree BiProject.Lib.SearchTree BinaryTree

/-! ## In the middle of an operation -/

section
variable {F V V' : Set Addr} {c c' : List Kv} {h : Heap} {t t' : Tree} {done rest : List Event}

/-- The tree that is visible after some of the stores. -/
theorem evolve_split (evolve : Evolve F c c' V h t (done ++ rest) V' t') :
    ∃ V₁ t₁, Evolve F c c' V h t done V₁ t₁ ∧ Evolve F c c' V₁ (applyAll h done) t₁ rest V' t' := by
  induction done generalizing V h t with
  | nil => exact ⟨V, t, .done, evolve⟩
  | cons e done ih =>
    cases evolve with
    | quiet quiet evolve =>
      obtain ⟨V₁, t₁, first, second⟩ := ih evolve
      exact ⟨V₁, t₁, .quiet quiet first, second⟩
    | publish link new nodup contents evolve =>
      obtain ⟨V₁, t₁, first, second⟩ := ih evolve
      exact ⟨V₁, t₁, .publish link new nodup contents first, second⟩

end

section
variable {fuel : Nat} {m : Mem} {M : List Kv} {t : Tree} {cells : Nat → Addr} {op : Op} {done rest es : List Event} {a : Addr}

/-- An operation on a tree that represents a map. -/
structure Begun (fuel : Nat) (cells : Nat → Addr) (m : Mem) (M : List Kv) (t : Tree) (op : Op) (es : List Event) : Prop where
  rep : Represents m t M
  small : M.length < maxNodes
  small' : (op.ref M).length < maxNodes
  fresh : Fresh cells m
  run : ∃ res, op.run fuel cells m = some (res, es)

theorem Begun.ends (deep : maxNodes ≤ fuel) (begun : Begun fuel cells m M t op es) :
    ∃ t', Represents (m.applyAll es) t' (op.ref M) ∧ (addrs t ++ allocs es).Perm (addrs t' ++ frees es) ∧ (addrs t ++ allocs es).Nodup := by
  obtain ⟨res, run⟩ := begun.run
  obtain ⟨es', t', run', rep', operated, _⟩ := begun.rep.step deep begun.small begun.fresh op
  obtain ⟨_, rfl⟩ := Prod.mk.inj (Option.some.inj (run.symm.trans run'))
  obtain ⟨inner, upd, rfl⟩ := operated.updated
  have noAlloc : allocs (publishRoot m.root (ptr t')) = [] := by unfold publishRoot; split_ifs <;> rfl
  have noFree : frees (publishRoot m.root (ptr t')) = [] := by unfold publishRoot; split_ifs <;> rfl
  simp only [allocs_append, frees_append, noAlloc, noFree, List.append_nil]
  exact ⟨t', rep', upd.nodes, upd.nodup begun.fresh.distinct (begun.rep.subtree begun.fresh)⟩

/-- What an operation obtains are cells of its supply. -/
theorem Begun.supply (deep : maxNodes ≤ fuel) (begun : Begun fuel cells m M t op es) (member : a ∈ allocs es) : ∃ i, cells i = a := by
  obtain ⟨res, run⟩ := begun.run
  obtain ⟨es', t', run', _, operated, _⟩ := begun.rep.step deep begun.small begun.fresh op
  obtain ⟨_, rfl⟩ := Prod.mk.inj (Option.some.inj (run.symm.trans run'))
  obtain ⟨inner, upd, rfl⟩ := operated.updated
  have noAlloc : allocs (publishRoot m.root (ptr t')) = [] := by unfold publishRoot; split_ifs <;> rfl
  rw [allocs_append, noAlloc, List.append_nil] at member
  obtain ⟨i, _, cell⟩ := upd.mem_allocs member
  exact ⟨_, cell⟩

/-- Up to the store to the root the nodes in the tree are among those that the stores make visible. -/
theorem reach_of_begun {s : St} {t' : Tree} {inner : List Event} (rep : Represents m t M) (heap : s.heap = m.heap)
    (upd : Updated cells s t inner t') (begins : inner = done ++ rest)
    (reach : Reach (m.applyAll done).heap (m.applyAll done).root a) : a ∈ addrs t ∨ a ∈ allocs inner := by
  obtain ⟨V, tn, evolve, visible⟩ := upd.visible
  rw [heap] at evolve
  apply visible
  subst begins
  obtain ⟨V₁, t₁, first, second⟩ := evolve_split evolve
  obtain ⟨shape, inside⟩ := first.shape rep.holds.shape fun a member => member
  have root : (m.applyAll done).root = ptr t₁ := by
    rw [applyAll_root m first.noRoot, ← rep.root, first.ptr_eq]
  rw [root, applyAll_heap, shape.reach_iff] at reach
  exact second.mono (inside a reach)

/-- What is in the tree while the operation runs was in it before, or is obtained by the operation. -/
theorem Begun.reach (deep : maxNodes ≤ fuel) (begun : Begun fuel cells m M t op (done ++ rest))
    (reach : Reach (m.applyAll done).heap (m.applyAll done).root a) : a ∈ addrs t ∨ a ∈ allocs (done ++ rest) := by
  obtain ⟨t', rep', perm, _⟩ := begun.ends deep
  obtain ⟨res, run⟩ := begun.run
  obtain ⟨es', t'', run', _, operated, _⟩ := begun.rep.step deep begun.small begun.fresh op
  obtain ⟨_, same⟩ := Prod.mk.inj (Option.some.inj (run.symm.trans run'))
  obtain ⟨inner, upd, rfl⟩ := operated.updated
  have grows : ∀ b, b ∈ allocs inner → b ∈ allocs (done ++ rest) := by
    intro b member
    rw [same, allocs_append]
    exact List.mem_append_left _ member
  rcases List.append_eq_append_iff.mp same with ⟨left, begins, _⟩ | ⟨left, ends, published⟩
  · exact (reach_of_begun begun.rep rfl upd begins reach).imp_right (grows a)
  · cases left with
    | nil =>
      rw [List.append_nil] at ends
      have begins : inner = done ++ [] := by rw [ends, List.append_nil]
      exact (reach_of_begun begun.rep rfl upd begins reach).imp_right (grows a)
    | cons e left =>
      -- the store to the root is the last one
      have last : rest = [] := by
        have short : (publishRoot m.root (ptr t'')).length ≤ 1 := by
          unfold publishRoot
          split_ifs <;> simp
        rw [published, List.cons_append, List.length_cons, List.length_append] at short
        apply List.eq_nil_of_length_eq_zero
        omega
      simp only [last, List.append_nil] at rep' perm ⊢
      rw [rep'.reach_iff] at reach
      exact List.mem_append.mp (perm.mem_iff.mpr (List.mem_append_left _ reach))

end

/-! ## The cells of the tree and of the operation -/

/-- What the tree and the operation have, with `free_buf`. While an operation runs, what it frees is counted where it was. -/
inductive Hand (fuel : Nat) : RbTree.Sys → List Addr → List Addr → Prop where
  | ended {m : Mem} {M M' : List Kv} {t : Tree} {buf : List Addr} (rep : Represents m t M) (small : M.length < maxNodes) :
      Hand fuel ⟨m, [], M', M⟩ buf (addrs t ++ buf)
  | working {cells : Nat → Addr} {m : Mem} {M : List Kv} {t : Tree} {op : Op} {done rest : List Event}
      (begun : Begun fuel cells m M t op (done ++ rest)) :
      Hand fuel ⟨m.applyAll done, rest, M, op.ref M⟩ (frees done) (addrs t ++ allocs (done ++ rest))

section
variable {fuel : Nat} {τ : RbTree.Sys} {buf held : List Addr} {a : Addr}

/-- After the operation these are the nodes of the tree and those in `free_buf`. -/
theorem Hand.settle (deep : maxNodes ≤ fuel) (hand : Hand fuel τ buf held) (ended : τ.pending = []) :
    ∃ t, Represents τ.mem t τ.after ∧ τ.after.length < maxNodes ∧ held.Perm (addrs t ++ buf) := by
  cases hand with
  | ended rep small => exact ⟨_, rep, small, .refl _⟩
  | working begun =>
    simp only at ended
    subst ended
    obtain ⟨t', rep', perm, _⟩ := begun.ends deep
    simp only [List.append_nil] at rep' perm ⊢
    exact ⟨t', rep', begun.small', perm⟩

theorem Hand.reach (deep : maxNodes ≤ fuel) (hand : Hand fuel τ buf held) (reach : Reach τ.mem.heap τ.mem.root a) : a ∈ held := by
  cases hand with
  | ended rep small =>
    rw [rep.reach_iff] at reach
    exact List.mem_append_left _ reach
  | working begun => exact List.mem_append.mpr (begun.reach deep reach)

theorem Hand.store {e : Event} {es : List Event} (hand : Hand fuel τ buf held) (next : τ.pending = e :: es) :
    Hand fuel ⟨τ.mem.apply e, es, τ.before, τ.after⟩ (buf ++ frees [e]) held := by
  cases hand with
  | ended rep small => cases next
  | @working cells m M t op done rest begun =>
    simp only at next
    subst next
    have split : done ++ e :: es = (done ++ [e]) ++ es := by simp
    have after : (m.applyAll done).apply e = m.applyAll (done ++ [e]) := by simp [Mem.applyAll]
    rw [split] at begun ⊢
    rw [← frees_append]
    simp only [after]
    exact .working begun

end

/-! ## The cells on their way back -/

/-- What was passed to `bi_smr_free` and not reclaimed yet, with the time, oldest first. -/
def retired (h : Smr.History) : List (Nat × Addr) :=
  ((Smr.frees 0 .smr h).drop (Smr.takes 0 .smr h).length).map fun f => (f.1, f.2.1.toNat)

section
variable {P : Smr.Params} {start now period r : Nat} {r₀ rt : Smr.Runtime} {h : Smr.History} {view : Nat → Nat} {ev : Smr.Ev}

theorem retired_same (noFree : ev.freed 0 .smr = []) (noTake : ev.taken 0 .smr = []) : retired (⟨r, ev⟩ :: h) = retired h := by
  simp [retired, Smr.frees, Smr.takes, noFree, noTake]

theorem retired_free {buf : Smr.Addr} {sz : Nat} {put : List Smr.QuiesItem} (init : r₀.Init) (run : Smr.Run P start r₀ h now view rt) :
    retired (⟨r, .free 0 .smr buf sz put⟩ :: h) = retired h ++ [(r, buf.toNat)] := by
  have queue := run.queueInv init 0 .smr
  have room := Nat.le_trans queue.length_lt.1 queue.puts_le_frees
  simp [retired, Smr.frees, Smr.takes, Smr.Ev.freed, Smr.Ev.taken, List.drop_append_of_le_length room]

theorem retired_reclaim (items : List Smr.QuiesItem) : retired (⟨r, .reclaim 0 .smr items⟩ :: h) = (retired h).drop items.length := by
  simp [retired, Smr.frees, Smr.takes, Smr.Ev.freed, Smr.Ev.taken, List.map_drop, List.drop_drop]

/-- What a reclaim gives back is the oldest, and every open section began after it was passed to `bi_smr_free`. -/
theorem retired_taken {items : List Smr.QuiesItem} (init : r₀.Init) (run : Smr.Run P start r₀ (⟨r, .reclaim 0 .smr items⟩ :: h) now view rt)
    (timely : Smr.TimeFlushEvery P period start r (⟨r, .reclaim 0 .smr items⟩ :: h)) (grace : period + P.lag ≤ flushGracePeriod)
    (lag : P.lag < flushGracePeriod) {i : Nat} {item : Smr.QuiesItem} (found : items[i]? = some item) :
    ∃ tf, (retired h)[i]? = some (tf, item.obj.toNat) ∧
      ∀ n < P.activeNodes, ∀ c < P.activeCores, ∀ te, Smr.inSection n c h = some te → ¬ te < tf := by
  obtain ⟨tf, sz, freed, covered⟩ := Smr.reclaim_safe init run timely grace lag i item found
  refine ⟨tf, ?_, covered⟩
  simp [retired, List.getElem?_drop, freed]

end

end BiProject.TreeSmr
