import BiProject.TreeSmr.Cells

/-!
# Searches on reclaimed memory

The correctness of a search rests on cells that are not handed out again while it runs, and the safety of reclamation on sections and
on frees. Here they meet: what a search has seen in the tree is still there, or was freed in its section, so that no reclaim takes it
before `bi_exit`.
-/

namespace BiProject.TreeSmr
set_option autoImplicit false
open BiProject.RbTree BiProject.Lib.SearchTree BinaryTree

/-- Each cell that is handed out is in one place. -/
structure Books (σ : Sys) (h : Smr.History) (held : List Addr) : Prop where
  nodup : (held ++ (retired h).map Prod.snd).Nodup
  live : ∀ a, a ∈ σ.live ↔ a ∈ held ∨ a ∈ (retired h).map Prod.snd

/-- A search in its section: what it has seen is held or was freed since. -/
structure Searching (P : Smr.Params) (fuel : Nat) (h : Smr.History) (τ : RbTree.Sys) (held : List Addr) (n c : Nat) (s : Search) : Prop where
  node : n < P.activeNodes
  core : c < P.activeCores
  inside : ∃ te, Smr.inSection n c h = some te ∧ ∀ a ∈ Seen s.since, a ∈ held ∨ ∃ tf, te < tf ∧ (tf, a) ∈ retired h
  run : n = 0 → ∃ σ₀, Written fuel σ₀ ∧ Tracks s.key τ.mem (SearchRun fuel s.key σ₀ s.since τ) s.pos

/-- The invariant: a tree, its cells accounted for, and every search in its section. -/
structure Inv (P : Smr.Params) (fuel : Nat) (h : Smr.History) (σ : Sys) : Prop where
  written : Written fuel σ.tree
  held : ∃ held, Hand fuel σ.tree σ.freeBuf held ∧ Books σ h held ∧
    ∀ n c s, σ.find n c = some s → Searching P fuel h σ.tree held n c s

section
variable {P : Smr.Params} {fuel start now period : Nat} {r₀ : Smr.Runtime} {h : Smr.History} {view : Nat → Nat} {σ σ' : Sys}
  {held held' : List Addr} {n c : Nat} {s : Search}

/-- What a search has seen is handed out. -/
theorem Searching.seen_live (searching : Searching P fuel h σ.tree held n c s) (books : Books σ h held) {a : Addr} (seen : a ∈ Seen s.since) :
    a ∈ σ.live := by
  obtain ⟨te, _, all⟩ := searching.inside
  apply (books.live a).mpr
  rcases all a seen with here | ⟨tf, _, member⟩
  · exact Or.inl here
  · exact Or.inr (List.mem_map.mpr ⟨_, member, rfl⟩)

/-- A node that a search holds was in the tree since its `bi_enter`. -/
theorem held_seen {k : Nat} {σ₀ τ : RbTree.Sys} {ms : List Mem} {a : Addr} (deep : maxNodes ≤ fuel) (written : Written fuel σ₀)
    (holds : SearchRun fuel k σ₀ ms τ (.at (some a)) ∨ SearchRun fuel k σ₀ ms τ (.done (some a))) : a ∈ Seen ms := by
  rcases holds with holds | found
  · exact (holds.inv deep written).find.1 a rfl
  · exact ((found.inv deep written).find.1 a rfl).1

/-- The searches see a step of the writer. -/
theorem Searching.write {τ τ' : RbTree.Sys} (deep : maxNodes ≤ fuel) (searching : Searching P fuel h τ held n c s)
    (step : WStep fuel (Seen s.since) τ τ') (same : ∀ a, a ∈ held → a ∈ held') (reach : ∀ a, Reach τ'.mem.heap τ'.mem.root a → a ∈ held') :
    Searching P fuel h τ' held' n c { s with since := τ'.mem :: s.since } := by
  obtain ⟨te, entered, all⟩ := searching.inside
  refine ⟨searching.node, searching.core, ⟨te, entered, ?_⟩, ?_⟩
  · rintro a ⟨m, member, seen⟩
    rcases List.mem_cons.mp member with rfl | older
    · exact Or.inl (reach a seen)
    · exact (all a ⟨m, older, seen⟩).imp_left (same a)
  · intro home
    obtain ⟨σ₀, written, tracks⟩ := searching.run home
    refine ⟨σ₀, written, tracks.mono (fun f run => .write run step) ?_⟩
    intro a holds
    have seen := held_seen deep written holds
    rcases holds with holds | found
    · exact (holds.inv deep written).pair step seen
    · exact (found.inv deep written).pair step seen

/-- A search as the writer sees it. -/
theorem seeing_some {m : Mem} (search : σ.seeing m n c = some s) :
    ∃ s₀, σ.find n c = some s₀ ∧ s = { s₀ with since := m :: s₀.since } := by
  obtain ⟨s₀, found, rfl⟩ := Option.map_eq_some_iff.mp search
  exact ⟨s₀, found, rfl⟩

/-! ## Steps of the tree -/

/-- The server begins an operation. -/
theorem Inv.begin (deep : maxNodes ≤ fuel) (inv : Inv P fuel h σ) {cells : Nat → Addr} {op : Op} {res : Res} {es : List Event}
    (ended : σ.tree.pending = []) (emptied : σ.freeBuf = []) (distinct : Function.Injective cells) (unused : ∀ i, cells i ∉ σ.live)
    (run : op.run fuel cells σ.tree.mem = some (res, es)) (small : (op.ref σ.tree.after).length < maxNodes) :
    Inv P fuel h { σ with
      tree := ⟨σ.tree.mem, es, σ.tree.after, op.ref σ.tree.after⟩
      live := σ.live ∪ {a | a ∈ allocs es}
      find := σ.seeing σ.tree.mem } := by
  obtain ⟨held, hand, books, searches⟩ := inv.held
  obtain ⟨t, rep, bound, perm⟩ := hand.settle deep ended
  have fresh : Fresh cells σ.tree.mem := by
    refine ⟨distinct, fun i reach => unused i ?_⟩
    exact (books.live _).mpr (Or.inl (hand.reach deep reach))
  have begun : Begun fuel cells σ.tree.mem σ.tree.after t op es := ⟨rep, bound, small, fresh, res, run⟩
  obtain ⟨t', _, _, nodup⟩ := begun.ends deep
  have state : σ.tree = ⟨σ.tree.mem, [], σ.tree.before, σ.tree.after⟩ := by rw [← ended]
  have writes : ∀ {A : Set Addr}, (∀ i, cells i ∉ A) → WStep fuel A σ.tree ⟨σ.tree.mem, es, σ.tree.after, op.ref σ.tree.after⟩ := by
    intro A unseen
    have step := WStep.begin (M := σ.tree.before) fresh unseen run small
    rwa [← state] at step
  -- the cells obtained are none of those handed out
  have new : ∀ a ∈ allocs es, a ∉ σ.live := by
    intro a member
    obtain ⟨i, rfl⟩ := begun.supply deep member
    exact unused i
  have before : (addrs t ++ (retired h).map Prod.snd).Nodup := by
    have nodup₀ := books.nodup
    rw [emptied, List.append_nil] at perm
    exact (perm.append_right _).nodup_iff.mp nodup₀
  have same : ∀ a, a ∈ held ↔ a ∈ addrs t := by
    intro a
    rw [perm.mem_iff, emptied, List.append_nil]
  refine ⟨inv.written.step (writes fun i => Set.notMem_empty _), addrs t ++ allocs es, ?_, ⟨?_, ?_⟩, ?_⟩
  · have working : Hand fuel ⟨σ.tree.mem.applyAll [], es, σ.tree.after, op.ref σ.tree.after⟩ (frees []) (addrs t ++ allocs ([] ++ es)) :=
      .working begun
    rw [emptied]
    exact working
  · rw [List.append_assoc]
    have tail : ∀ a ∈ allocs es, a ∉ (retired h).map Prod.snd := fun a member back => new a member ((books.live a).mpr (Or.inr back))
    grind [List.nodup_append]
  · intro a
    simp only [Set.mem_union, books.live, same, List.mem_append, Set.mem_ofPred_eq]
    tauto
  · intro n c s search
    obtain ⟨s₀, found, rfl⟩ := seeing_some search
    have searching := searches n c s₀ found
    apply searching.write deep (writes fun i seen => unused i (searching.seen_live books seen))
    · intro a member
      exact List.mem_append_left _ ((same a).mp member)
    · intro a reach
      exact List.mem_append_left _ ((same a).mp (hand.reach deep reach))

/-- The writer performs its next store. -/
theorem Inv.store (deep : maxNodes ≤ fuel) (inv : Inv P fuel h σ) {e : Event} {es : List Event} {type : Addr → Nat}
    (next : σ.tree.pending = e :: es) :
    Inv P fuel h { σ with
      tree := ⟨σ.tree.mem.apply e, es, σ.tree.before, σ.tree.after⟩
      type := type
      freeBuf := σ.freeBuf ++ frees [e]
      find := σ.seeing (σ.tree.mem.apply e) } := by
  obtain ⟨held, hand, books, searches⟩ := inv.held
  have state : σ.tree = ⟨σ.tree.mem, e :: es, σ.tree.before, σ.tree.after⟩ := by rw [← next]
  have writes : ∀ A : Set Addr, WStep fuel A σ.tree ⟨σ.tree.mem.apply e, es, σ.tree.before, σ.tree.after⟩ := by
    intro A
    have step : WStep fuel A ⟨σ.tree.mem, e :: es, σ.tree.before, σ.tree.after⟩
        ⟨σ.tree.mem.apply e, es, σ.tree.before, σ.tree.after⟩ := .store
    rwa [← state] at step
  have stored := hand.store next
  refine ⟨inv.written.step (writes ∅), held, stored, ⟨books.nodup, books.live⟩, ?_⟩
  intro n c s search
  obtain ⟨s₀, found, rfl⟩ := seeing_some search
  exact (searches n c s₀ found).write deep (writes _) (fun a member => member) fun a reach => stored.reach deep reach

/-- A search goes on; on node 0 by a load of the memory. -/
theorem Inv.goes (inv : Inv P fuel h σ) {p : Place} (search : σ.find n c = some s)
    (step : n = 0 → Goes s.key σ.tree.mem σ.type s.pos p) :
    Inv P fuel h { σ with find := Smr.upd σ.find n c (some { s with pos := p }) } := by
  obtain ⟨held, hand, books, searches⟩ := inv.held
  refine ⟨inv.written, held, hand, ⟨books.nodup, books.live⟩, ?_⟩
  intro n' c' s' search'
  by_cases here : n' = n ∧ c' = c
  · obtain ⟨rfl, rfl⟩ := here
    simp only [Smr.upd_same, Option.some.injEq] at search'
    subst search'
    have searching := searches n' c' s search
    refine ⟨searching.node, searching.core, searching.inside, ?_⟩
    intro home
    obtain ⟨σ₀, written, tracks⟩ := searching.run home
    exact ⟨σ₀, written, tracks.next (fun f f' run step => .read run step) (step home)⟩
  · simp only [Smr.upd_ne _ _ here] at search'
    exact searches n' c' s' search'

/-- **A step of the tree.** -/
theorem Inv.tree (deep : maxNodes ≤ fuel) (inv : Inv P fuel h σ) (step : Local fuel σ σ') : Inv P fuel h σ' := by
  cases step with
  | begin ended emptied distinct unused run small => exact inv.begin deep ended emptied distinct unused run small
  | store next => exact inv.store deep next
  | setfree ended top =>
    obtain ⟨held, hand, ⟨nodup, live⟩, searches⟩ := inv.held
    exact ⟨inv.written, held, hand, ⟨nodup, live⟩, searches⟩
  | load search step => exact inv.goes search fun _ => step
  | stale search away => exact inv.goes search fun home => absurd home away

/-! ## Steps of the runtime -/

section
variable {t : Nat} {ev : Smr.Ev} {rt : Smr.Runtime} {τ : RbTree.Sys}

/-- A step of the runtime leaves a search in its section, and does not take back what the search has seen. -/
theorem Searching.frame (searching : Searching P fuel h τ held n c s) (past : ∀ e ∈ h, e.time < t)
    (still : Smr.inSection n c (⟨t, ev⟩ :: h) = Smr.inSection n c h)
    (keeps : ∀ te, Smr.inSection n c h = some te → ∀ tf a, te < tf → (tf, a) ∈ retired h → (tf, a) ∈ retired (⟨t, ev⟩ :: h))
    (passed : ∀ a ∈ held, a ∈ held' ∨ (t, a) ∈ retired (⟨t, ev⟩ :: h)) : Searching P fuel (⟨t, ev⟩ :: h) τ held' n c s := by
  obtain ⟨te, entered, all⟩ := searching.inside
  have began : te < t := by
    obtain ⟨e, member, rfl⟩ := Smr.inSection_mem entered
    exact past e member
  refine ⟨searching.node, searching.core, ⟨te, still.trans entered, ?_⟩, searching.run⟩
  intro a seen
  rcases all a seen with here | ⟨tf, after, back⟩
  · exact (passed a here).imp_right fun now => ⟨t, began, now⟩
  · exact Or.inr ⟨tf, after, keeps te entered tf a after back⟩

/-- The cells may be held in another order. -/
theorem Books.perm (books : Books σ h held) {h' : Smr.History}
    (perm : (held ++ (retired h).map Prod.snd).Perm (held' ++ (retired h').map Prod.snd)) (live : σ'.live = σ.live) : Books σ' h' held' := by
  refine ⟨perm.nodup_iff.mp books.nodup, fun a => ?_⟩
  rw [live, books.live, ← List.mem_append, perm.mem_iff, List.mem_append]

/-- A step of the runtime that frees and reclaims nothing of the tree. -/
theorem Inv.same (inv : Inv P fuel h σ) (past : ∀ e ∈ h, e.time < t) (retire : retired (⟨t, ev⟩ :: h) = retired h)
    (tree : σ'.tree = σ.tree) (freeBuf : σ'.freeBuf = σ.freeBuf) (live : σ'.live = σ.live)
    (searches : ∀ n c s, σ'.find n c = some s → Smr.inSection n c (⟨t, ev⟩ :: h) = Smr.inSection n c h ∧ σ.find n c = some s ∨
      n < P.activeNodes ∧ c < P.activeCores ∧ Smr.inSection n c (⟨t, ev⟩ :: h) = some t ∧ s.since = [σ.tree.mem] ∧ s.pos = .load .root)
    (deep : maxNodes ≤ fuel) : Inv P fuel (⟨t, ev⟩ :: h) σ' := by
  obtain ⟨held, hand, books, before⟩ := inv.held
  refine ⟨tree ▸ inv.written, held, by rw [tree, freeBuf]; exact hand, books.perm (by rw [retire]) live, ?_⟩
  intro n c s search
  rw [tree]
  rcases searches n c s search with ⟨still, found⟩ | ⟨node, core, entered, since, called⟩
  · apply (before n c s found).frame past still
    · intro te _ tf a _ back
      rwa [retire]
    · intro a here
      exact Or.inl here
  · refine ⟨node, core, ⟨t, entered, ?_⟩, fun _ => ⟨σ.tree, inv.written, ?_⟩⟩
    · rintro a ⟨m, member, seen⟩
      rw [since, List.mem_singleton] at member
      subst member
      exact Or.inl (hand.reach deep seen)
    · rw [since, called]
      exact SearchRun.call

/-- A search begins its section, -/
theorem Inv.enter (deep : maxNodes ≤ fuel) (inv : Inv P fuel h σ) (past : ∀ e ∈ h, e.time < t) (node : n < P.activeNodes)
    (core : c < P.activeCores) (key : Nat) :
    Inv P fuel (⟨t, .enter n c⟩ :: h) { σ with find := Smr.upd σ.find n c (some ⟨key, .load .root, [σ.tree.mem]⟩) } := by
  refine inv.same past (retired_same rfl rfl) rfl rfl rfl ?_ deep
  intro n' c' s search
  by_cases here : n' = n ∧ c' = c
  · obtain ⟨rfl, rfl⟩ := here
    simp only [Smr.upd_same, Option.some.injEq] at search
    subst search
    exact Or.inr ⟨node, core, by simp [Smr.inSection], rfl, rfl⟩
  · simp only [Smr.upd_ne _ _ here] at search
    refine Or.inl ⟨?_, search⟩
    simp only [Smr.inSection]
    rw [if_neg fun same => here ⟨same.1.symm, same.2.symm⟩]

/-- and another ends it. -/
theorem Inv.exit (deep : maxNodes ≤ fuel) (inv : Inv P fuel h σ) (past : ∀ e ∈ h, e.time < t) :
    Inv P fuel (⟨t, .exit n c⟩ :: h) { σ with find := Smr.upd σ.find n c none } := by
  refine inv.same past (retired_same rfl rfl) rfl rfl rfl ?_ deep
  intro n' c' s search
  by_cases here : n' = n ∧ c' = c
  · obtain ⟨rfl, rfl⟩ := here
    simp only [Smr.upd_same, reduceCtorEq] at search
  · simp only [Smr.upd_ne _ _ here] at search
    refine Or.inl ⟨?_, search⟩
    simp only [Smr.inSection]
    rw [if_neg fun same => here ⟨same.1.symm, same.2.symm⟩]

/-- `bi_smr_free` of the node on top of `free_buf`. -/
theorem Inv.free (deep : maxNodes ≤ fuel) (init : r₀.Init) (inv : Inv P fuel h σ) (run : Smr.Run P start r₀ h now view σ.rt)
    (past : ∀ e ∈ h, e.time < t) {buf : Smr.Addr} {l : List Addr} {sz : Nat} {put : List Smr.QuiesItem} (ended : σ.tree.pending = [])
    (top : σ.freeBuf = l ++ [buf.toNat]) : Inv P fuel (⟨t, .free 0 .smr buf sz put⟩ :: h) { σ with freeBuf := l } := by
  obtain ⟨held, hand, books, searches⟩ := inv.held
  obtain ⟨tree, rep, small, perm⟩ := hand.settle deep ended
  have retire : retired (⟨t, .free 0 .smr buf sz put⟩ :: h) = retired h ++ [(t, buf.toNat)] := retired_free init run
  have state : σ.tree = ⟨σ.tree.mem, [], σ.tree.before, σ.tree.after⟩ := by rw [← ended]
  rw [top, ← List.append_assoc] at perm
  refine ⟨inv.written, addrs tree ++ l, ?_, books.perm ?_ rfl, ?_⟩
  · simp only
    rw [state]
    exact .ended rep small
  · rw [retire, List.map_append, ← List.append_assoc]
    have moved : ((addrs tree ++ l ++ [buf.toNat]) ++ (retired h).map Prod.snd).Perm
        (addrs tree ++ l ++ (retired h).map Prod.snd ++ [buf.toNat]) := by
      rw [List.append_assoc, List.append_assoc (addrs tree ++ l)]
      exact List.perm_append_comm.append_left _
    exact (perm.append_right _).trans moved
  · intro n c s search
    apply (searches n c s search).frame past rfl
    · intro te _ tf a _ back
      rw [retire]
      exact List.mem_append_left _ back
    · intro a here
      rw [retire]
      rcases List.mem_append.mp (perm.mem_iff.mp here) with stays | goes
      · exact Or.inl stays
      · rw [List.mem_singleton.mp goes]
        exact Or.inr (List.mem_append_right _ List.mem_cons_self)

/-- `bi_smr_reclaim` takes nothing that a search has seen. -/
theorem Inv.reclaim (inv : Inv P fuel h σ) (past : ∀ e ∈ h, e.time < t) {items : List Smr.QuiesItem}
    (taken : ∀ (i : Nat) (item : Smr.QuiesItem), items[i]? = some item → ∃ tf, (retired h)[i]? = some (tf, item.obj.toNat) ∧
      ∀ n < P.activeNodes, ∀ c < P.activeCores, ∀ te, Smr.inSection n c h = some te → ¬ te < tf) :
    Inv P fuel (⟨t, .reclaim 0 .smr items⟩ :: h) { σ with live := {a | a ∈ σ.live ∧ ∀ i ∈ items, i.obj.toNat ≠ a} } := by
  obtain ⟨held, hand, books, searches⟩ := inv.held
  have retire : retired (⟨t, .reclaim 0 .smr items⟩ :: h) = (retired h).drop items.length := retired_reclaim items
  have oldest : ∀ {i : Nat} {f : Nat × Addr}, ((retired h).take items.length)[i]? = some f → ∃ item, items[i]? = some item ∧
      f.2 = item.obj.toNat ∧ ∀ n < P.activeNodes, ∀ c < P.activeCores, ∀ te, Smr.inSection n c h = some te → ¬ te < f.1 := by
    intro i f found
    have inside : i < items.length := Nat.lt_of_lt_of_le (List.getElem?_eq_some_iff.mp found).1 (List.length_take_le _ _)
    obtain ⟨tf, back, covered⟩ := taken i items[i] (List.getElem?_eq_getElem inside)
    rw [List.getElem?_take_of_lt inside, back, Option.some.injEq] at found
    subst found
    exact ⟨_, List.getElem?_eq_getElem inside, rfl, covered⟩
  have first : ((retired h).take items.length).map Prod.snd = items.map fun i => i.obj.toNat := by
    apply List.ext_getElem?
    intro i
    rw [List.getElem?_map, List.getElem?_map]
    by_cases inside : i < items.length
    · obtain ⟨tf, back, _⟩ := taken i items[i] (List.getElem?_eq_getElem inside)
      rw [List.getElem?_take_of_lt inside, back, List.getElem?_eq_getElem inside]
      rfl
    · rw [List.getElem?_eq_none (Nat.le_trans (List.length_take_le _ _) (Nat.le_of_not_lt inside)),
        List.getElem?_eq_none (Nat.le_of_not_lt inside)]
      rfl
  have split : (retired h).map Prod.snd = (items.map fun i => i.obj.toNat) ++ ((retired h).drop items.length).map Prod.snd := by
    rw [← first, ← List.map_append, List.take_append_drop]
  have nodup := books.nodup
  rw [split] at nodup
  refine ⟨inv.written, held, hand, ⟨?_, ?_⟩, ?_⟩
  · rw [retire]
    exact nodup.sublist ((List.sublist_append_right _ _).append_left _)
  · intro a
    have given : (∀ i ∈ items, i.obj.toNat ≠ a) ↔ a ∉ items.map fun i => i.obj.toNat := by simp
    obtain ⟨_, tail, apart⟩ := List.nodup_append.mp nodup
    obtain ⟨_, _, apart'⟩ := List.nodup_append.mp tail
    have stays : a ∈ held → a ∉ items.map fun i => i.obj.toNat := fun here gone => apart a here a (List.mem_append_left _ gone) rfl
    have waits : a ∈ ((retired h).drop items.length).map Prod.snd → a ∉ items.map fun i => i.obj.toNat :=
      fun later gone => apart' a gone a later rfl
    rw [retire, Set.mem_ofPred_eq, given, books.live, split, List.mem_append]
    tauto
  · intro n c s search
    have searching := searches n c s search
    apply searching.frame past rfl
    · intro te entered tf a after back
      rw [retire]
      rw [← List.take_append_drop items.length (retired h)] at back
      rcases List.mem_append.mp back with gone | later
      · obtain ⟨i, found⟩ := List.mem_iff_getElem?.mp gone
        obtain ⟨_, _, _, covered⟩ := oldest found
        exact absurd after (covered n searching.node c searching.core te entered)
      · exact later
    · intro a here
      exact Or.inl here

/-- Steps of the runtime that are none of these. -/
theorem Inv.other (deep : maxNodes ≤ fuel) (inv : Inv P fuel h σ) (past : ∀ e ∈ h, e.time < t) (others : ¬ Ours ev) :
    Inv P fuel (⟨t, ev⟩ :: h) σ := by
  have still : ∀ n c, Smr.inSection n c (⟨t, ev⟩ :: h) = Smr.inSection n c h := by
    intro n c
    cases ev <;> first | rfl | exact absurd trivial others
  refine inv.same past (retired_same ?_ ?_) rfl rfl rfl (fun n c s search => Or.inl ⟨still n c, search⟩) deep
  · cases ev with
    | free n κ buf sz put => exact if_neg fun same => others same.2
    | _ => rfl
  · cases ev with
    | reclaim n κ items => exact if_neg others
    | _ => rfl

/-- **A step of the runtime.** -/
theorem Inv.runtime (deep : maxNodes ≤ fuel) (init : r₀.Init) (inv : Inv P fuel h σ) {now : Nat} {view view' clk : Nat → Nat}
    (run : Smr.Run P start r₀ h now view σ.rt) (later : now < t) (node : ev.node < P.activeNodes)
    (clock : Smr.Clock P t view view' ev.node clk) (act : Smr.Do P clk σ.rt ev rt) (shared : Shared σ ev σ')
    (timely : Smr.TimeFlushEvery P period start t (⟨t, ev⟩ :: h)) (grace : period + P.lag ≤ flushGracePeriod)
    (lag : P.lag < flushGracePeriod) : Inv P fuel (⟨t, ev⟩ :: h) σ' := by
  have past : ∀ e ∈ h, e.time < t := fun e member => Nat.lt_of_le_of_lt (run.time_le.2 e member) later
  have next := run.step later node clock act
  cases shared with
  | enter idle =>
    cases act with
    | enter core => exact inv.enter deep past node core _
  | exit search done => exact inv.exit deep past
  | free ended top marked => exact inv.free deep init run past ended top
  | reclaim ended emptied => exact inv.reclaim past fun i item found => retired_taken init next timely grace lag found
  | other others => exact inv.other deep past others

end

/-! ## Runs -/

/-- Sections were published in time all along. -/
theorem timely_before {t : Nat} {ev : Smr.Ev} (later : now < t) (timely : Smr.TimeFlushEvery P period start t (⟨t, ev⟩ :: h)) :
    Smr.TimeFlushEvery P period start now h := by
  intro m active t' after inside
  obtain ⟨e, member, low, high, flush⟩ := timely m active t' after (by omega)
  rcases List.mem_cons.mp member with rfl | older
  · simp only at high
    omega
  · exact ⟨e, older, low, high, flush⟩

/-- The invariant holds when the server is ready. -/
theorem Sys.Ready.inv (deep : maxNodes ≤ fuel) (ready : σ.Ready fuel r₀) : Inv P fuel [] σ := by
  obtain ⟨V, t, t', F, c, es, working⟩ := ready.written.working deep
  have rep := working.represents ready.ended
  have state : σ.tree = ⟨σ.tree.mem, [], σ.tree.before, σ.tree.after⟩ := by rw [← ready.ended]
  refine ⟨ready.written, addrs t ++ [], ?_, ⟨?_, ?_⟩, ?_⟩
  · rw [ready.freeBuf, state]
    exact .ended rep working.small
  · simpa [retired, Smr.frees] using rep.nodup
  · intro a
    rw [ready.live, rep.reach_iff]
    simp [retired, Smr.frees]
  · intro n c s search
    rw [ready.find] at search
    cases search

/-- A step of the tree does not touch the runtime. -/
theorem Local.rt (step : Local fuel σ σ') : σ'.rt = σ.rt := by
  cases step <;> rfl

/-- **Every run keeps the cells and the searches.** -/
theorem Run.inv (deep : maxNodes ≤ fuel) (init : r₀.Init) (grace : period + P.lag ≤ flushGracePeriod) (lag : P.lag < flushGracePeriod)
    (run : Run P fuel start r₀ h now view σ) (timely : Smr.TimeFlushEvery P period start now h) :
    Smr.Run P start r₀ h now view σ.rt ∧ Inv P fuel h σ := by
  induction run with
  | init view ready =>
    rw [ready.rt]
    exact ⟨.init view, ready.inv deep⟩
  | tree before step ih =>
    obtain ⟨smr, inv⟩ := ih timely
    rw [step.rt]
    exact ⟨smr, inv.tree deep step⟩
  | runtime before later node clock act shared ih =>
    obtain ⟨smr, inv⟩ := ih (timely_before later timely)
    obtain ⟨written, held, hand, ⟨nodup, live⟩, searches⟩ := inv.runtime deep init smr later node clock act shared timely grace lag
    exact ⟨smr.step later node clock act, written, held, hand, ⟨nodup, live⟩, searches⟩

end

/-! ## A search beside an insertion -/

/-- The tree 1, 2 on the cells 100 and 110. -/
def pair : Mem :=
  (emptyTree.applyAll (nodeEvents 100 none none 1 ⟨1, 1⟩ ++ [.root (some 100)])).applyAll
    (nodeEvents 110 none none 1 ⟨2, 2⟩ ++ [.link .right 100 (some 110), .size 100 2])

/-- It is a tree, -/
theorem pair_shape : Shape pair.heap (node (100, ⟨1, 1⟩) nil (node (110, ⟨2, 2⟩) nil nil)) :=
  ⟨rfl, rfl, rfl, trivial, rfl, rfl, rfl, trivial, trivial⟩

/-- these are its cells, -/
theorem pair_reach (a : Addr) : Reach pair.heap pair.root a ↔ a = 100 ∨ a = 110 := by
  rw [show pair.root = ptr (node (100, (⟨1, 1⟩ : Kv)) nil (node (110, ⟨2, 2⟩) nil nil)) from rfl, pair_shape.reach_iff]
  simp

/-- and two insertions have made it. -/
theorem pair_written : Written maxNodes ⟨pair, [], [⟨1, 1⟩], [⟨2, 2⟩, ⟨1, 1⟩]⟩ := by
  have empty : Written maxNodes ⟨emptyTree, [], [], []⟩ := .init
  have cells : Fresh (100 + ·) emptyTree := fresh_above (t := nil) trivial rfl (by simp)
  have first : Written maxNodes ⟨_, [], [], [⟨1, 1⟩]⟩ :=
    (Written.step empty (.begin cells (fun _ => Set.notMem_empty _) (rfl : (Op.insert 1 1).run maxNodes (100 + ·) emptyTree = _) (by decide))).finish
  have fresh : Fresh (110 + ·) (emptyTree.applyAll (nodeEvents 100 none none 1 ⟨1, 1⟩ ++ [.root (some 100)])) :=
    fresh_above (t := node (100, ⟨1, 1⟩) nil nil) ⟨rfl, rfl, rfl, trivial, trivial⟩ rfl (by decide)
  exact (Written.step first (.begin fresh (fun _ => Set.notMem_empty _) (rfl : (Op.insert 2 2).run maxNodes (110 + ·) _ = _) (by decide))).finish

/-- The server of node 0 before an insertion. -/
def Sys.pair : Sys :=
  ⟨⟨TreeSmr.pair, [], [⟨1, 1⟩], [⟨2, 2⟩, ⟨1, 1⟩]⟩, fun _ => 0, [], {a | a = 100 ∨ a = 110}, fun _ _ => none, .blank⟩

/-- It is ready. -/
theorem Sys.pair_ready : Sys.pair.Ready maxNodes .blank :=
  ⟨pair_written, rfl, rfl, fun a => (pair_reach a).symm, fun _ _ => rfl, rfl⟩

/-- The writer performs the rest of its operation. -/
theorem Run.finish {P : Smr.Params} {fuel start now : Nat} {r₀ : Smr.Runtime} {h : Smr.History} {view : Nat → Nat} (es : List Event) :
    ∀ {σ : Sys}, Run P fuel start r₀ h now view σ → σ.tree.pending = es →
      ∃ σ', Run P fuel start r₀ h now view σ' ∧ σ'.tree = ⟨σ.tree.mem.applyAll es, [], σ.tree.before, σ.tree.after⟩ ∧
        σ'.freeBuf = σ.freeBuf ++ frees es ∧ σ'.rt = σ.rt ∧
        ∀ n c s, σ.find n c = some s → ∃ ms, σ'.find n c = some { s with since := ms } ∧ ∀ m ∈ s.since, m ∈ ms := by
  induction es with
  | nil =>
    intro σ run ended
    refine ⟨σ, run, ?_, (List.append_nil _).symm, rfl, fun n c s search => ⟨s.since, search, fun m member => member⟩⟩
    have state : σ.tree = ⟨σ.tree.mem, [], σ.tree.before, σ.tree.after⟩ := by rw [← ended]
    exact state
  | cons e es ih =>
    intro σ run next
    obtain ⟨σ', run', tree, freeBuf, rt, searches⟩ := ih (run.tree (@Local.store fuel σ e es 0 next)) rfl
    refine ⟨σ', run', tree, ?_, rt, ?_⟩
    · rw [freeBuf, List.append_assoc, ← frees_append]
      rfl
    · intro n c s search
      have seen : σ.seeing (σ.tree.mem.apply e) n c = some { s with since := σ.tree.mem.apply e :: s.since } := by simp [Sys.seeing, search]
      obtain ⟨ms, search', kept⟩ := searches n c { s with since := σ.tree.mem.apply e :: s.since } seen
      exact ⟨ms, search', fun m member => kept m (List.mem_cons_of_mem _ member)⟩

/-- A search of node 0 runs on alone. -/
theorem Run.goes {P : Smr.Params} {fuel start now c : Nat} {r₀ : Smr.Runtime} {h : Smr.History} {view : Nat → Nat} {σ : Sys} {s : Search}
    {p : Place} (run : Run P fuel start r₀ h now view σ) (search : σ.find 0 c = some s)
    (goes : Relation.ReflTransGen (Goes s.key σ.tree.mem σ.type) s.pos p) :
    ∃ σ', Run P fuel start r₀ h now view σ' ∧ σ'.tree = σ.tree ∧ σ'.type = σ.type ∧ σ'.find 0 c = some { s with pos := p } := by
  induction goes with
  | refl => exact ⟨σ, run, rfl, rfl, search⟩
  | @tail q p rest step ih =>
    obtain ⟨σ', run', tree, type, search'⟩ := ih
    have step' : Goes s.key σ'.tree.mem σ'.type q p := by rwa [tree, type]
    exact ⟨_, run'.tree (.load search' step'), tree, type, Smr.upd_same _ _ _ _⟩

/-- A search for 2 has loaded the pointer to the root when an insertion takes that node out, and it is passed to `bi_smr_free`. -/
theorem Run.pair : ∃ h now view σ ms, Run ⟨1, 1, 0⟩ maxNodes flushGracePeriod .blank h now view σ ∧
    Smr.TimeFlushEvery ⟨1, 1, 0⟩ flushGracePeriod flushGracePeriod now h ∧ σ.find 0 0 = some ⟨2, .check .root 100, ms⟩ ∧
    TreeSmr.pair ∈ ms ∧ σ.tree.pending = [] ∧ (retired h).map Prod.snd = [100] ∧ σ.type 100 = slabFree ∧ σ.tree.mem.root = some 122 ∧
    (σ.tree.mem.heap 122).kv = ⟨2, 2⟩ := by
  let G := flushGracePeriod
  have r : Run ⟨1, 1, 0⟩ maxNodes G .blank [] G (fun _ => G) Sys.pair := .init _ Sys.pair_ready
  have enters : Shared Sys.pair (.enter 0 0) { Sys.pair with find := Smr.upd Sys.pair.find 0 0 (some ⟨2, .load .root, [TreeSmr.pair]⟩) } :=
    .enter rfl
  have r : Run ⟨1, 1, 0⟩ maxNodes G .blank [⟨G + 1, .enter 0 0⟩] (G + 1) (fun _ => G + 1) _ :=
    r.runtime (Nat.lt_succ_self _) (by decide) (Smr.Clock.exact (Nat.le_succ _) (by decide) (by decide)) (.enter (by decide)) enters
  have r := r.tree (.load (c := 0) (p := .check .root 100) rfl rfl)
  have unused : ∀ i, (120 + ·) i ∉ Sys.pair.live := by
    intro i member
    have here : (120 + i : Nat) = 100 ∨ (120 + i : Nat) = 110 := member
    rcases here with low | high
    · exact absurd low (by omega)
    · exact absurd high (by omega)
  have r := r.tree (.begin rfl rfl (fun i j same => Nat.add_left_cancel same) unused
    (rfl : (Op.insert 3 3).run maxNodes (120 + ·) TreeSmr.pair = _) (by decide))
  obtain ⟨σ, r, tree, freeBuf, rt, searches⟩ := r.finish _ rfl
  obtain ⟨ms, search, kept⟩ := searches 0 0 _ rfl
  have top : σ.freeBuf = [110] ++ [(100#64 : Smr.Addr).toNat] := freeBuf
  have ended : σ.tree.pending = [] := by rw [tree]
  have r := r.tree (.setfree ended top)
  obtain ⟨q, freed⟩ : ∃ q, Smr.freeInto .smr (σ.rt.queue 0 .smr) 100#64 64 (fun _ => G + 2) = some q := by
    rw [rt]
    exact ⟨_, rfl⟩
  let h : Smr.History := [⟨G + 2, .free 0 .smr 100#64 64 (Smr.newItems (σ.rt.queue 0 .smr) q)⟩, ⟨G + 1, .enter 0 0⟩]
  have r : Run ⟨1, 1, 0⟩ maxNodes G .blank h (G + 2) (fun _ => G + 2) _ :=
    r.runtime (Nat.lt_succ_self _) Nat.zero_lt_one (Smr.Clock.exact (Nat.le_succ _) (by decide) (by decide)) (.free freed)
      (.free ended top (by simp))
  have timely : Smr.TimeFlushEvery ⟨1, 1, 0⟩ G G (G + 2) h := by
    intro m active t after inside
    have long : 3 ≤ G := by decide
    omega
  refine ⟨h, _, _, _, ms, r, timely, search, kept _ (by simp), ended, rfl, ?_, ?_, ?_⟩
  · simp
  · simp only [tree]
    rfl
  · simp only [tree]
    rfl

/-! ## Main results -/

/-- **Searches are correct on memory that is reclaimed.** Whatever the server, `free_nodes`, `bi_smr_reclaim` and the other searches do, the
cells that were in the tree since a search's `bi_enter` are not given back before its `bi_exit`, on any node. On node 0 so is each
node that it has a pointer to; it ends once it runs on; the debugging block never stops it, and the assertion of `cb_find` only
at a pair that was bound since `bi_enter` and whose value is not its key; it finds its key if that was bound ever since and misses it if
it never was; and what it returns is the key with itself as the value, bound at some moment since. -/
theorem find_on_reclaimed_memory {P : Smr.Params} {fuel start now period : Nat} {r₀ : Smr.Runtime} {h : Smr.History} {view : Nat → Nat} {σ : Sys}
    (deep : maxNodes ≤ fuel) (init : r₀.Init) (grace : period + P.lag ≤ flushGracePeriod) (lag : P.lag < flushGracePeriod)
    (run : Run P fuel start r₀ h now view σ) (timely : Smr.TimeFlushEvery P period start now h) {n c : Nat} {s : Search}
    (search : σ.find n c = some s) :
    (∀ m ∈ s.since, ∀ a, Reach m.heap m.root a → a ∈ σ.live) ∧
      (n = 0 →
        (∀ a ∈ s.pos.nodes, a ∈ σ.live) ∧
        (∃ e : Place, e.Over ∧ Relation.ReflTransGen (Goes s.key σ.tree.mem σ.type) s.pos e) ∧
        (∀ a, s.pos ≠ .changed a) ∧
        (∀ a, s.pos = .unequal a → ∃ value, value ≠ s.key ∧ ∃ m ∈ s.since, Binds m ⟨s.key, value⟩) ∧
        ∀ r, s.pos = .done r →
          ((∀ m ∈ s.since, Bound m s.key) → ∃ a, r = some a) ∧
          ((∀ m ∈ s.since, ¬ Bound m s.key) → r = none) ∧
          ∀ a, r = some a → (σ.tree.mem.heap a).kv = ⟨s.key, s.key⟩ ∧ ∃ m ∈ s.since, Binds m ⟨s.key, s.key⟩) := by
  obtain ⟨_, inv⟩ := run.inv deep init grace lag timely
  obtain ⟨held, hand, books, searches⟩ := inv.held
  have searching := searches n c s search
  refine ⟨fun m member a reach => searching.seen_live books ⟨m, member, reach⟩, ?_⟩
  intro home
  obtain ⟨σ₀, written, tracks⟩ := searching.run home
  -- what the search finds, as a search that loads each pointer once
  have result : ∀ r, SearchRun fuel s.key σ₀ s.since σ.tree (.done r) → _ := fun r run => (treeBBFind_concurrent deep written run).2.2 r rfl
  refine ⟨?_, ?_, ?_, ?_, ?_⟩
  · intro a member
    exact searching.seen_live books (held_seen deep written (tracks.nodes member))
  · exact tracks.over (fun f f' run step => .read run step) fun f run => (treeBBFind_concurrent deep written run).2.1
  · intro a stopped
    rw [stopped] at tracks
    exact tracks.elim
  · intro a stopped
    rw [stopped] at tracks
    obtain ⟨isKey, m, member, binds⟩ := (result _ tracks.1).2.2 a rfl
    refine ⟨(σ.tree.mem.heap a).kv.value, tracks.2, m, member, ?_⟩
    rw [← isKey]
    exact binds
  · intro r returned
    rw [returned] at tracks
    cases r with
    | none =>
      obtain ⟨bound, unbound, _⟩ := result none tracks
      refine ⟨?_, fun _ => rfl, fun a found => by cases found⟩
      intro all
      obtain ⟨a, found, _⟩ := bound all
      exact ⟨a, found⟩
    | some a =>
      obtain ⟨_, unbound, pair⟩ := result (some a) tracks.1
      refine ⟨fun _ => ⟨a, rfl⟩, unbound, ?_⟩
      intro b found
      obtain rfl := Option.some.inj found
      obtain ⟨isKey, m, member, binds⟩ := pair a rfl
      have same : (σ.tree.mem.heap a).kv = ⟨s.key, s.key⟩ := by
        calc (σ.tree.mem.heap a).kv = ⟨(σ.tree.mem.heap a).kv.key, (σ.tree.mem.heap a).kv.value⟩ := rfl
          _ = ⟨s.key, s.key⟩ := by rw [isKey, tracks.2]
      exact ⟨same, m, member, by rw [← same]; exact binds⟩

/-- The search for 2 reads that the header of the old root says `SLAB_FREE`, loads the pointer again, and returns from the new root. -/
theorem find_on_reclaimed_memory_freed : ∃ h now view σ ms, Run ⟨1, 1, 0⟩ maxNodes flushGracePeriod .blank h now view σ ∧
    (retired h).map Prod.snd = [100] ∧ σ.tree.mem.root = some 122 ∧ 100 ∈ σ.live ∧ σ.find 0 0 = some ⟨2, .done (some 122), ms⟩ ∧
    (σ.tree.mem.heap 122).kv = ⟨2, 2⟩ := by
  obtain ⟨h, now, view, σ, ms, run, timely, search, kept, _, back, isFree, root, pair⟩ := Run.pair
  have again : Goes 2 σ.tree.mem σ.type (.check .root 100) (.reload .root) := by simp [Goes, Place.next, isFree]
  have equal : Goes 2 σ.tree.mem σ.type (.equal 122) (.ret 122) := by simp [Goes, Place.next, pair]
  have returns : Goes 2 σ.tree.mem σ.type (.ret 122) (.done (some 122)) := by simp [Goes, Place.next, pair]
  have read : Goes 2 σ.tree.mem σ.type (.loop (some 122)) (.dbg 122 2) := by simp [Goes, Place.next, pair]
  have same : Goes 2 σ.tree.mem σ.type (.dbg 122 2) (.equal 122) := by simp [Goes, Place.next, pair]
  have loads : Relation.ReflTransGen (Goes 2 σ.tree.mem σ.type) (.reload .root) (.loop (Loc.root.load σ.tree.mem)) := goes_reload _
  simp only [Loc.load, root] at loads
  obtain ⟨σ', run', tree, type, search'⟩ := run.goes search (.head again (loads.trans (.head read (.head same (.head equal (.single returns))))))
  obtain ⟨live, home⟩ := find_on_reclaimed_memory (Nat.le_refl _) Smr.Runtime.blank_init (by decide) (by decide) run' timely search'
  obtain ⟨_, _, _, _, result⟩ := home rfl
  refine ⟨h, now, view, σ', ms, run', back, by rw [tree, root], ?_, search', ?_⟩
  · exact live TreeSmr.pair kept 100 ((pair_reach 100).mpr (Or.inl rfl))
  · exact ((result _ rfl).2.2 122 rfl).1

end BiProject.TreeSmr
