import BiProject.AtomicObj.Rcu

/-!
# Who has a block

A block is the current one of an object, in a writer's hands, or kept to be freed; and only one of these. Blocks pass from one to the
other, a new one is taken, or one is given up, and no two overlap.
-/

namespace BiProject.AtomicObj
set_option autoImplicit false
open BiProject.Lib.Regions

inductive Owner where
  | obj (id : Nat)
  | core (t : Nat)

/-- A new block, before it is put in place. -/
def Pc.new : Pc → List Nat
  | .wrLock _ new | .wrLoad _ new | .wrCopy _ new _ _ => [new]
  | _ => []

/-- A block that was replaced, before it is in `local_buf`. -/
def Pc.old : Pc → List Nat
  | .wrUnlock _ old | .rcuFree old | .sync old _ | .freeing old _ => [old]
  | _ => []

/-- What is in `local_buf` and not freed yet. -/
def Pc.rest : Pc → List Nat → List Nat
  | .freeing _ i, buf => buf.drop i
  | _, buf => buf

def Sys.kept (σ : Sys) (t : Nat) : List Nat := (σ.pc t).rest (σ.buf t)

/-- The blocks that a reader may have seen. -/
def Sys.shown (C : Config) (σ : Sys) : Owner → List Nat
  | .obj id => if id < C.num then [σ.data id] else []
  | .core t => (σ.pc t).old ++ σ.kept t

def Sys.own (C : Config) (σ : Sys) : Owner → List Nat
  | .obj id => σ.shown C (.obj id)
  | .core t => (σ.pc t).new ++ σ.shown C (.core t)

/-- No two blocks overlap, and those in use are the ones that somebody has. -/
structure Books (C : Config) (σ : Sys) : Prop where
  owned : Owned fun κ => (σ.own C κ).map C.block
  live : ∀ a, σ.live a = true ↔ ∃ κ, a ∈ σ.own C κ

section
variable {C : Config} {σ σ' : Sys} {t u : Nat} {a b : Nat} {κ κ' : Owner}

theorem Config.not_apart_self (C : Config) (a : Nat) : ¬ (C.block a).Apart (C.block a) := by
  have := C.sz_pos
  unfold Region.Apart Config.block
  simp only
  omega

theorem Sys.own_of_shown (shown : a ∈ σ.shown C κ) : a ∈ σ.own C κ := by
  cases κ with
  | obj id => exact shown
  | core t => exact List.mem_append_right _ shown

theorem Books.pairwise (books : Books C σ) (κ : Owner) : (σ.own C κ).Pairwise fun a b => (C.block a).Apart (C.block b) :=
  List.pairwise_map.mp (books.owned.each κ)

theorem Books.across (books : Books C σ) (differ : κ ≠ κ') (here : a ∈ σ.own C κ) (there : b ∈ σ.own C κ') :
    (C.block a).Apart (C.block b) :=
  books.owned.across κ κ' differ _ (List.mem_map_of_mem here) _ (List.mem_map_of_mem there)

/-- Nobody else has a block. -/
theorem Books.unique (books : Books C σ) (here : a ∈ σ.own C κ) (there : a ∈ σ.own C κ') : κ = κ' := by
  by_contra differ
  exact C.not_apart_self a (books.across differ here there)

theorem Books.nodup (books : Books C σ) (κ : Owner) : (σ.own C κ).Nodup := by
  apply (books.pairwise κ).imp
  rintro a b apart rfl
  exact C.not_apart_self _ apart

/-- A block that is being filled is apart from those that a reader may have seen. -/
theorem Books.new_apart (books : Books C σ) (new : a ∈ (σ.pc t).new) (shown : b ∈ σ.shown C κ) : (C.block b).Apart (C.block a) := by
  by_cases same : κ = .core t
  · subst same
    exact ((List.pairwise_append.mp (books.pairwise (.core t))).2.2 a new b shown).symm
  · exact books.across same (Sys.own_of_shown shown) (List.mem_append_left _ new)

/-- Each has the blocks that it had. -/
theorem Books.perm (books : Books C σ) (own : ∀ κ, (σ'.own C κ).Perm (σ.own C κ)) (live : σ'.live = σ.live) : Books C σ' := by
  constructor
  · constructor
    · intro κ
      exact (((own κ).map C.block).pairwise_iff fun apart => apart.symm).mpr (books.owned.each κ)
    · intro κ κ' differ r held s held'
      exact books.owned.across κ κ' differ r (((own κ).map C.block).mem_iff.mp held) s (((own κ').map C.block).mem_iff.mp held')
  · intro a
    rw [live, books.live]
    exact exists_congr fun κ => (own κ).mem_iff.symm

theorem held_of {own own' : Owner → List Nat} (rest : ∀ j, j ≠ κ → j ≠ κ' → own' j = own j)
    (moved : own κ ++ own κ' ⊆ own' κ ++ own' κ') (held : ∃ j, a ∈ own j) : ∃ j, a ∈ own' j := by
  obtain ⟨j, held⟩ := held
  have here : a ∈ own κ ++ own κ' → ∃ j, a ∈ own' j := by
    intro member
    rcases List.mem_append.mp (moved member) with first | second
    · exact ⟨κ, first⟩
    · exact ⟨κ', second⟩
  by_cases first : j = κ
  · exact here (List.mem_append_left _ (first ▸ held))
  · by_cases second : j = κ'
    · exact here (List.mem_append_right _ (second ▸ held))
    · exact ⟨j, by rwa [rest j first second]⟩

/-- Blocks move between two owners. -/
theorem Books.move (books : Books C σ) (differ : κ ≠ κ') (rest : ∀ j, j ≠ κ → j ≠ κ' → σ'.own C j = σ.own C j)
    (moved : (σ'.own C κ ++ σ'.own C κ').Perm (σ.own C κ ++ σ.own C κ')) (live : σ'.live = σ.live) : Books C σ' := by
  constructor
  · apply books.owned.change differ List.Pairwise.nil (by simp)
    · intro j notK notK'
      rw [rest j notK notK']
    · simp only [← List.map_append, List.nil_append]
      exact (moved.map C.block).subperm
  · intro a
    rw [live, books.live]
    constructor
    · exact held_of rest moved.symm.subset
    · exact held_of (fun j notK notK' => (rest j notK notK').symm) moved.subset

/-- One block is given up. -/
theorem Books.give (books : Books C σ) (rest : ∀ j, j ≠ κ → σ'.own C j = σ.own C j) (given : (σ.own C κ).Perm (b :: σ'.own C κ))
    (live : σ'.live = Function.update σ.live b false) : Books C σ' := by
  have others : ∀ j, ∀ a ∈ σ'.own C j, a ∈ σ.own C j ∧ a ≠ b := by
    intro j a held
    by_cases here : j = κ
    · subst here
      refine ⟨given.mem_iff.mpr (List.mem_cons_of_mem _ held), ?_⟩
      rintro rfl
      exact (List.nodup_cons.mp (given.nodup_iff.mp (books.nodup j))).1 held
    · rw [rest j here] at held
      refine ⟨held, ?_⟩
      rintro rfl
      exact here (books.unique held (given.mem_iff.mpr List.mem_cons_self))
  constructor
  · constructor
    · intro j
      by_cases here : j = κ
      · subst here
        have all := ((given.map C.block).pairwise_iff fun apart => apart.symm).mp (books.owned.each j)
        exact (List.pairwise_cons.mp all).2
      · rw [rest j here]
        exact books.owned.each j
    · intro j j' differ r held s held'
      obtain ⟨a, member, rfl⟩ := List.mem_map.mp held
      obtain ⟨a', member', rfl⟩ := List.mem_map.mp held'
      exact books.across differ (others j a member).1 (others j' a' member').1
  · intro a
    rw [live]
    by_cases same : a = b
    · subst same
      simp only [Function.update_self, Bool.false_eq_true, false_iff]
      rintro ⟨j, held⟩
      exact (others j a held).2 rfl
    · rw [Function.update_of_ne same, books.live]
      constructor
      · rintro ⟨j, held⟩
        by_cases here : j = κ
        · subst here
          exact ⟨j, ((List.mem_cons.mp (given.mem_iff.mp held)).resolve_left same)⟩
        · exact ⟨j, by rwa [rest j here]⟩
      · rintro ⟨j, held⟩
        exact ⟨j, (others j a held).1⟩

/-- A new block is taken. -/
theorem Books.take (books : Books C σ) (rest : ∀ j, j ≠ κ → σ'.own C j = σ.own C j) (taken : σ'.own C κ = b :: σ.own C κ)
    (apart : ∀ a, σ.live a = true → (C.block b).Apart (C.block a)) (live : σ'.live = Function.update σ.live b true) : Books C σ' := by
  have away : ∀ j, ∀ a ∈ σ.own C j, (C.block b).Apart (C.block a) := fun j a held => apart a ((books.live a).mpr ⟨j, held⟩)
  constructor
  · constructor
    · intro j
      by_cases here : j = κ
      · subst here
        rw [taken, List.map_cons, List.pairwise_cons]
        refine ⟨?_, books.owned.each j⟩
        intro r held
        obtain ⟨a, member, rfl⟩ := List.mem_map.mp held
        exact away j a member
      · rw [rest j here]
        exact books.owned.each j
    · intro j j' differ r held s held'
      obtain ⟨a, member, rfl⟩ := List.mem_map.mp held
      obtain ⟨a', member', rfl⟩ := List.mem_map.mp held'
      by_cases here : j = κ
      · subst here
        rw [rest j' (Ne.symm differ)] at member'
        rw [taken] at member
        rcases List.mem_cons.mp member with rfl | old
        · exact away j' a' member'
        · exact books.across differ old member'
      · rw [rest j here] at member
        by_cases there : j' = κ
        · subst there
          rw [taken] at member'
          rcases List.mem_cons.mp member' with rfl | old
          · exact (away j a member).symm
          · exact books.across differ member old
        · rw [rest j' there] at member'
          exact books.across differ member member'
  · intro a
    rw [live]
    by_cases same : a = b
    · subst same
      simp only [Function.update_self, true_iff]
      exact ⟨κ, by simp [taken]⟩
    · rw [Function.update_of_ne same, books.live]
      constructor
      · rintro ⟨j, held⟩
        by_cases here : j = κ
        · subst here
          exact ⟨j, by rw [taken]; exact List.mem_cons_of_mem _ held⟩
        · exact ⟨j, by rwa [rest j here]⟩
      · rintro ⟨j, held⟩
        by_cases here : j = κ
        · subst here
          rw [taken] at held
          exact ⟨j, (List.mem_cons.mp held).resolve_left same⟩
        · exact ⟨j, by rwa [rest j here] at held⟩

end

end BiProject.AtomicObj
