import BiProject.Startup.Entered
import Mathlib.Logic.Relation

/-!
# The start can always be finished

From wherever the nodes are, they all get to the loop of `bi_server_run` if they go on one after another: the master opens `g_bar`,
the others raise their entries, the master raises its own, and the others see it. A node that waits flushes the line it
waits for, and what was written back to memory stays there.
-/

namespace BiProject.Startup
set_option autoImplicit false
open BiProject.Lib
open Relation (ReflTransGen)

/-- A node goes on alone for a while. -/
def Goes (C : Config) (n : Nat) : Sys → Sys → Prop := ReflTransGen fun σ σ' => σ.go C n = some σ'

/-- The nodes and the hardware go on for a while. -/
def Moves (C : Config) : Sys → Sys → Prop := ReflTransGen fun σ σ' => ∃ a, σ.step C a = some σ'

section
variable {C : Config} {n : Nat} {σ σ' : Sys}

/-- One node that goes on is some nodes that do. -/
theorem Goes.moves (goes : Goes C n σ σ') (active : n < C.ntot) : Moves C σ σ' := by
  induction goes with
  | refl => exact .refl
  | tail _ step ih => exact ih.tail ⟨.go n, by simp [Sys.step, active, step]⟩

/-- The invariant goes with them. -/
theorem Moves.inv (moves : Moves C σ σ') (inv : Inv C σ) : Inv C σ' := by
  induction moves with
  | refl => exact inv
  | tail _ step ih =>
    obtain ⟨a, step⟩ := step
    exact ih.step step

end

section
variable {C : Config} {n : Nat} {others : Nat → Pc} {p q r : Pc}

/-- A node that goes on alone from `p` can get to `q`, with the others where they are. -/
def Leads (C : Config) (n : Nat) (others : Nat → Pc) (p q : Pc) : Prop :=
  ∀ σ, Inv C σ → σ.pc = Function.update others n p → ∃ σ', Goes C n σ σ' ∧ σ'.pc = Function.update others n q

/-- A node is where it is, -/
theorem Leads.refl : Leads C n others p p := fun σ _ at_ => ⟨σ, .refl, at_⟩

/-- and gets on from where it gets to. -/
theorem Leads.trans (active : n < C.ntot) (first : Leads C n others p q) (second : Leads C n others q r) : Leads C n others p r := by
  intro σ inv at_
  obtain ⟨σ', goes, there⟩ := first σ inv at_
  obtain ⟨σ'', goes', last⟩ := second σ' ((goes.moves active).inv inv) there
  exact ⟨σ'', goes.trans goes', last⟩

/-- One step, from whatever the lines are. -/
theorem Leads.step (step : ∀ σ : Sys, σ.pc n = p → ∃ σ', σ.go C n = some σ' ∧ σ'.pc = Function.update σ.pc n q) : Leads C n others p q := by
  intro σ _ at_
  obtain ⟨σ', step, pc⟩ := step σ (by rw [at_, Function.update_self])
  refine ⟨σ', .single step, ?_⟩
  rw [pc, at_, Function.update_idem]

/-! ## The master opens `g_bar` -/

/-- The master is past `bi_set_barrier(1)` when it has written `g_bar` back, -/
theorem leads_wb1 : Leads C n others .wb1 (.waitFlush 1) := .step fun σ at_ => ⟨_, by simp only [Sys.go, at_]; rfl, rfl⟩

/-- before that stored to it, -/
theorem leads_store1 (active : n < C.ntot) : Leads C n others .store1 (.waitFlush 1) :=
  .trans active (.step fun σ at_ => ⟨_, by simp only [Sys.go, at_]; rfl, rfl⟩) leads_wb1

/-- before that written all tables back, -/
theorem leads_wbAll (active : n < C.ntot) (rest : List LineId) : Leads C n others (.wbAll rest) (.waitFlush 1) := by
  induction rest with
  | nil => exact .trans active (.step fun σ at_ => ⟨_, by simp only [Sys.go, at_]; rfl, rfl⟩) (leads_store1 active)
  | cons l rest ih => exact .trans active (.step fun σ at_ => ⟨_, by simp only [Sys.go, at_]; rfl, rfl⟩) ih

/-- filled them, -/
theorem leads_fill (active : n < C.ntot) (rest : List LineId) : Leads C n others (.fill rest) (.waitFlush 1) := by
  induction rest with
  | nil => exact .trans active (.step fun σ at_ => ⟨_, by simp only [Sys.go, at_]; rfl, rfl⟩) (leads_wbAll active C.lines)
  | cons l rest ih => exact .trans active (.step fun σ at_ => ⟨_, by simp only [Sys.go, at_]; rfl, rfl⟩) ih

/-- cleared them, -/
theorem leads_memset (active : n < C.ntot) (rest : List LineId) : Leads C n others (.memset rest) (.waitFlush 1) := by
  induction rest with
  | nil => exact .trans active (.step fun σ at_ => ⟨_, by simp only [Sys.go, at_]; rfl, rfl⟩) (leads_fill active C.lines)
  | cons l rest ih => exact .trans active (.step fun σ at_ => ⟨_, by simp only [Sys.go, at_]; rfl, rfl⟩) ih

/-- and first of all written a 0 to `g_bar` back, -/
theorem leads_wb0 (active : n < C.ntot) : Leads C n others .wb0 (.waitFlush 1) :=
  .trans active (.step fun σ at_ => ⟨_, by simp only [Sys.go, at_]; rfl, rfl⟩) (leads_memset active C.lines)

/-- which it has stored there. -/
theorem leads_store0 (active : n < C.ntot) : Leads C n others .store0 (.waitFlush 1) :=
  .trans active (.step fun σ at_ => ⟨_, by simp only [Sys.go, at_]; rfl, rfl⟩) (leads_wb0 active)

/-- The master gets past `bi_set_barrier(1)`. -/
theorem leads_opened (others : Nat → Pc) (active : n < C.ntot) (role : p.IsMaster) : ∃ q, Leads C n others p q ∧ q.opened ∧ q ≠ .wb1 ∧
    q.IsMaster := by
  cases p with
  | store0 => exact ⟨_, leads_store0 active, by simp⟩
  | wb0 => exact ⟨_, leads_wb0 active, by simp⟩
  | memset rest => exact ⟨_, leads_memset active rest, by simp⟩
  | fill rest => exact ⟨_, leads_fill active rest, by simp⟩
  | wbAll rest => exact ⟨_, leads_wbAll active rest, by simp⟩
  | store1 => exact ⟨_, leads_store1 active, by simp⟩
  | wb1 => exact ⟨_, leads_wb1, by simp⟩
  | waitFlush nd | waitLoad nd | bar0Store | bar0Wb | loop => exact ⟨_, .refl, by simp⟩
  | gFlush | gLoad | flushAll | barStore | barWb | bar0Flush | bar0Load => exact absurd role (by simp)

/-! ## A node that waits -/

/-- After a flush a node sees what was written back. -/
theorem view_clflush {L : Line Nat Nat} (raised : L.mem = 1 ∧ ∀ m, L.Clean m) (n : Nat) : (L.clflush n).view n = 1 := by
  rw [Line.view_of_none (Line.clflush_copy L n), Line.clflush_clean (raised.2 n), raised.1]

/-- A node waits for a line that has been raised: it flushes, loads, and goes on when it sees 1. -/
theorem leads_flush {l : LineId} (flush : ∀ σ : Sys, σ.pc n = p → σ.go C n = some (σ.on n l (fun l => l.clflush n) q))
    (load : ∀ σ : Sys, σ.pc n = q → (σ.line l).view n = 1 → σ.go C n = some (σ.on n l (fun l => l.load n) r))
    (raised : ∀ σ, Inv C σ → σ.pc = Function.update others n p → (σ.line l).mem = 1 ∧ ∀ m, (σ.line l).Clean m) : Leads C n others p r := by
  intro σ inv at_
  have view := view_clflush (raised σ inv at_) n
  have flushed := flush σ (by rw [at_, Function.update_self])
  have loaded := load (σ.on n l (fun l => l.clflush n) q) (by simp [Sys.on]) (by simp [Sys.on, view])
  refine ⟨_, .head flushed (.single loaded), ?_⟩
  simp [Sys.on, at_]

/-- It may have loaded the line too early, and flushes once more. -/
theorem leads_load (active : n < C.ntot) {l : LineId} {t : Pc}
    (load : ∀ σ : Sys, σ.pc n = q → σ.go C n = some (σ.on n l (fun l => l.load n) r) ∨ σ.go C n = some (σ.on n l (fun l => l.load n) p))
    (done : Leads C n others r t) (again : Leads C n others p t) : Leads C n others q t := by
  intro σ inv at_
  have goesOn : ∀ u, σ.go C n = some (σ.on n l (fun l => l.load n) u) → Leads C n others u t →
      ∃ σ', Goes C n σ σ' ∧ σ'.pc = Function.update others n t := by
    intro u step leads
    have goes : Goes C n σ (σ.on n l (fun l => l.load n) u) := .single step
    obtain ⟨σ', goes', last⟩ := leads _ ((goes.moves active).inv inv) (by simp [Sys.on, at_])
    exact ⟨σ', goes.trans goes', last⟩
  rcases load σ (by rw [at_, Function.update_self]) with step | step
  · exact goesOn r step done
  · exact goesOn p step again

/-! ## The other nodes raise their entries -/

/-- A node has raised its entry when it has written it back, -/
theorem leads_barWb : Leads C n others .barWb .bar0Flush := .step fun σ at_ => ⟨_, by simp only [Sys.go, at_]; rfl, rfl⟩

/-- before that stored to it, -/
theorem leads_barStore (active : n < C.ntot) : Leads C n others .barStore .bar0Flush :=
  .trans active (.step fun σ at_ => ⟨_, by simp only [Sys.go, at_]; rfl, rfl⟩) leads_barWb

/-- flushed the mapping, -/
theorem leads_flushAll (active : n < C.ntot) (rest : List LineId) : Leads C n others (.flushAll rest) .bar0Flush := by
  induction rest with
  | nil => exact .trans active (.step fun σ at_ => ⟨_, by simp only [Sys.go, at_]; rfl, rfl⟩) (leads_barStore active)
  | cons l rest ih => exact .trans active (.step fun σ at_ => ⟨_, by simp only [Sys.go, at_]; rfl, rfl⟩) ih

/-- and seen `g_bar` open, -/
theorem leads_gFlush (active : n < C.ntot) (other : n ≠ 0) (opened : (others 0).opened ∧ others 0 ≠ .wb1) : Leads C n others .gFlush .bar0Flush := by
  refine .trans active (leads_flush (l := .gBar) (q := .gLoad) ?_ ?_ ?_) (leads_flushAll active C.lines)
  · exact fun σ at_ => by simp only [Sys.go, at_]
  · exact fun σ at_ view => by simp only [Sys.go, at_, view, if_true]
  · intro σ inv at_
    apply (inv.lines _ C.gBar).raised
    rw [at_, Raised, Function.update_of_ne (Ne.symm other)]
    exact opened

/-- which it may just be loading. -/
theorem leads_gLoad (active : n < C.ntot) (other : n ≠ 0) (opened : (others 0).opened ∧ others 0 ≠ .wb1) : Leads C n others .gLoad .bar0Flush := by
  refine leads_load active (l := .gBar) (r := .flushAll C.lines) ?_ (leads_flushAll active C.lines) (leads_gFlush active other opened)
  intro σ at_
  simp only [Sys.go, at_]
  split
  · exact Or.inl rfl
  · exact Or.inr rfl

/-- So it gets its entry raised from wherever it is. -/
theorem leads_raised (others : Nat → Pc) (active : n < C.ntot) (other : n ≠ 0) (opened : (others 0).opened ∧ others 0 ≠ .wb1) (role : p.IsSlave) :
    ∃ q, Leads C n others p q ∧ q.raised ∧ q.IsSlave := by
  cases p with
  | gFlush => exact ⟨_, leads_gFlush active other opened, by simp⟩
  | gLoad => exact ⟨_, leads_gLoad active other opened, by simp⟩
  | flushAll rest => exact ⟨_, leads_flushAll active rest, by simp⟩
  | barStore => exact ⟨_, leads_barStore active, by simp⟩
  | barWb => exact ⟨_, leads_barWb, by simp⟩
  | bar0Flush | bar0Load | loop => exact ⟨_, .refl, by simp⟩
  | store0 | wb0 | memset | fill | wbAll | store1 | wb1 | waitFlush | waitLoad | bar0Store | bar0Wb => exact absurd role (by simp)

/-! ## The master sees them -/

/-- The master comes to its loop when it has written its entry back, -/
theorem leads_bar0Wb : Leads C n others .bar0Wb .loop := .step fun σ at_ => ⟨_, by simp only [Sys.go, at_]; rfl, rfl⟩

/-- stored to it, -/
theorem leads_bar0Store (active : n < C.ntot) : Leads C n others .bar0Store .loop :=
  .trans active (.step fun σ at_ => ⟨_, by simp only [Sys.go, at_]; rfl, rfl⟩) leads_bar0Wb

/-- and seen all others raised, -/
theorem leads_waitFlush_all (active : n < C.ntot) {nd : Nat} (all : ¬ nd < C.ntot) : Leads C n others (.waitFlush nd) .loop :=
  .trans active (.step fun σ at_ => ⟨σ.jump n .bar0Store, by simp only [Sys.go, at_, if_neg all], rfl⟩) (leads_bar0Store active)

/-- one after another. -/
theorem leads_waitFlush (active : 0 < C.ntot) (raised : ∀ k < C.ntot, k ≠ 0 → (others k).raised) (left nd : Nat) (start : nd ≠ 0)
    (count : C.ntot ≤ nd + left) : Leads C 0 others (.waitFlush nd) .loop := by
  induction left generalizing nd with
  | zero => exact leads_waitFlush_all active (Nat.not_lt.mpr count)
  | succ left ih =>
    by_cases more : nd < C.ntot
    · refine .trans active (leads_flush (l := .bar nd) (q := .waitLoad nd) ?_ ?_ ?_) (ih (nd + 1) (by omega) (by omega))
      · exact fun σ at_ => by simp only [Sys.go, at_, if_pos more]
      · exact fun σ at_ view => by simp [Sys.go, at_, view]
      · intro σ inv at_
        apply (inv.lines _ (C.bars nd more)).raised
        rw [at_, Raised, Function.update_of_ne start]
        exact raised nd more start
    · exact leads_waitFlush_all active more

/-- It may just be loading one. -/
theorem leads_waitLoad (active : 0 < C.ntot) (raised : ∀ k < C.ntot, k ≠ 0 → (others k).raised) (nd : Nat) (start : nd ≠ 0) :
    Leads C 0 others (.waitLoad nd) .loop := by
  refine leads_load active (l := .bar nd) (r := .waitFlush (nd + 1)) (p := .waitFlush nd) ?_
    (leads_waitFlush active raised C.ntot (nd + 1) (by omega) (by omega)) (leads_waitFlush active raised C.ntot nd start (by omega))
  intro σ at_
  simp only [Sys.go, at_]
  split
  · exact Or.inr rfl
  · exact Or.inl rfl

/-! ## The other nodes see the master -/

/-- The others come to their loops once the master's entry is raised, -/
theorem leads_bar0Flush (other : n ≠ 0) (active : 0 < C.ntot) (raised : (others 0).raised) : Leads C n others .bar0Flush .loop := by
  refine leads_flush (l := .bar 0) (q := .bar0Load) ?_ ?_ ?_
  · exact fun σ at_ => by simp only [Sys.go, at_]
  · exact fun σ at_ view => by simp [Sys.go, at_, view]
  · intro σ inv at_
    apply (inv.lines _ (C.bars 0 active)).raised
    rw [at_, Raised, Function.update_of_ne (Ne.symm other)]
    exact raised

/-- which they may just be loading. -/
theorem leads_bar0Load (here : n < C.ntot) (other : n ≠ 0) (active : 0 < C.ntot) (raised : (others 0).raised) : Leads C n others .bar0Load .loop := by
  refine leads_load here (l := .bar 0) (r := .loop) ?_ .refl (leads_bar0Flush other active raised)
  intro σ at_
  simp only [Sys.go, at_]
  split
  · exact Or.inr rfl
  · exact Or.inl rfl

/-! ## All nodes -/

/-- What a node can get to alone, it gets to in a run. -/
theorem Leads.moves {σ : Sys} (inv : Inv C σ) (active : n < C.ntot) (leads : Leads C n σ.pc (σ.pc n) q) :
    ∃ σ', Moves C σ σ' ∧ σ'.pc = Function.update σ.pc n q := by
  obtain ⟨σ', goes, last⟩ := leads σ inv (Function.update_eq_self n σ.pc).symm
  exact ⟨σ', goes.moves active, last⟩

/-- The master opens `g_bar`. -/
theorem moves_opened {σ : Sys} (inv : Inv C σ) (active : 0 < C.ntot) : ∃ σ', Moves C σ σ' ∧ (σ'.pc 0).opened ∧ σ'.pc 0 ≠ .wb1 := by
  obtain ⟨q, leads, opened, notWb, _⟩ := leads_opened σ.pc active inv.pcs.master
  obtain ⟨σ', moves, pc⟩ := leads.moves inv active
  refine ⟨σ', moves, ?_⟩
  rw [pc, Function.update_self]
  exact ⟨opened, notWb⟩

/-- One node after another raises its entry. -/
theorem moves_raised {σ : Sys} (inv : Inv C σ) (opened : (σ.pc 0).opened ∧ σ.pc 0 ≠ .wb1) (k : Nat) (bound : k ≤ C.ntot) :
    ∃ σ', Moves C σ σ' ∧ σ'.pc 0 = σ.pc 0 ∧ ∀ m < k, m ≠ 0 → (σ'.pc m).raised := by
  induction k with
  | zero => exact ⟨σ, .refl, rfl, fun m less => absurd less (Nat.not_lt_zero m)⟩
  | succ k ih =>
    obtain ⟨σ₁, moves, master, done⟩ := ih (by omega)
    by_cases first : k = 0
    · refine ⟨σ₁, moves, master, fun m less other => ?_⟩
      omega
    · have inv₁ := moves.inv inv
      obtain ⟨q, leads, raised, _⟩ := leads_raised σ₁.pc (Nat.lt_of_succ_le bound) first (master ▸ opened) (inv₁.pcs.slave k first)
      obtain ⟨σ₂, more, pc⟩ := leads.moves inv₁ (Nat.lt_of_succ_le bound)
      refine ⟨σ₂, moves.trans more, ?_, fun m less other => ?_⟩
      · rw [pc, Function.update_of_ne (Ne.symm first), master]
      · by_cases last : m = k
        · subst last
          rw [pc, Function.update_self]
          exact raised
        · rw [pc, Function.update_of_ne last]
          exact done m (by omega) other

/-- The master sees all others raised. -/
theorem moves_master {σ : Sys} (inv : Inv C σ) (active : 0 < C.ntot) (opened : (σ.pc 0).opened ∧ σ.pc 0 ≠ .wb1)
    (raised : ∀ m < C.ntot, m ≠ 0 → (σ.pc m).raised) : ∃ σ', Moves C σ σ' ∧ σ'.pc = Function.update σ.pc 0 .loop := by
  apply Leads.moves inv active
  cases at_ : σ.pc 0 with
  | store0 | wb0 | memset | fill | wbAll | store1 | wb1 => simp [at_] at opened
  | gFlush | gLoad | flushAll | barStore | barWb | bar0Flush | bar0Load => simpa [at_] using inv.pcs.master
  | waitFlush nd => exact leads_waitFlush active raised C.ntot nd (inv.pcs.started nd (Or.inl at_)) (by omega)
  | waitLoad nd => exact leads_waitLoad active raised nd (inv.pcs.started nd (Or.inr at_))
  | bar0Store => exact leads_bar0Store active
  | bar0Wb => exact leads_bar0Wb
  | loop => exact .refl

/-- One node after another sees the master's. -/
theorem moves_loop {σ : Sys} (inv : Inv C σ) (master : σ.pc 0 = .loop) (raised : ∀ m < C.ntot, m ≠ 0 → (σ.pc m).raised) (k : Nat)
    (bound : k ≤ C.ntot) :
    ∃ σ', Moves C σ σ' ∧ (∀ m < k, σ'.pc m = .loop) ∧ σ'.pc 0 = .loop ∧ ∀ m, k ≤ m → σ'.pc m = σ.pc m := by
  induction k with
  | zero => exact ⟨σ, .refl, fun m less => absurd less (Nat.not_lt_zero m), master, fun _ _ => rfl⟩
  | succ k ih =>
    obtain ⟨σ₁, moves, done, master₁, rest⟩ := ih (by omega)
    by_cases first : k = 0
    · refine ⟨σ₁, moves, fun m less => ?_, master₁, fun m later => rest m (by omega)⟩
      have zero : m = 0 := by omega
      rw [zero, master₁]
    · have inv₁ := moves.inv inv
      have here : k < C.ntot := Nat.lt_of_succ_le bound
      have up : (σ₁.pc k).raised := by
        rw [rest k (Nat.le_refl k)]
        exact raised k here first
      have role := inv₁.pcs.slave k first
      have leads : Leads C k σ₁.pc (σ₁.pc k) .loop := by
        cases at_ : σ₁.pc k with
        | bar0Flush => exact leads_bar0Flush first (by omega) (by simp [master₁])
        | bar0Load => exact leads_bar0Load here first (by omega) (by simp [master₁])
        | loop => exact .refl
        | store0 | wb0 | memset | fill | wbAll | store1 | wb1 | gFlush | gLoad | flushAll | waitFlush | waitLoad | bar0Store | bar0Wb | barStore
          | barWb =>
          simp [at_] at up
      obtain ⟨σ₂, more, pc⟩ := leads.moves inv₁ here
      refine ⟨σ₂, moves.trans more, fun m less => ?_, ?_, fun m later => ?_⟩
      · by_cases last : m = k
        · subst last
          rw [pc, Function.update_self]
        · rw [pc, Function.update_of_ne last]
          exact done m (by omega)
      · rw [pc, Function.update_of_ne (Ne.symm first), master₁]
      · rw [pc, Function.update_of_ne (by omega)]
        exact rest m (by omega)

/-- **The start can always be finished**: from every state of a run the nodes can go on until all of them are in the loop of
`bi_server_run`. -/
theorem startup_can_finish (C : Config) (old : LineId → Nat) (closed : old .gBar ≠ 1) (σ : Sys) (run : Sys.Run C old σ) :
    ∃ σ', Moves C σ σ' ∧ ∀ n < C.ntot, σ'.pc n = .loop := by
  by_cases active : 0 < C.ntot
  · have inv := run.inv closed
    obtain ⟨σ₁, moves₁, opened⟩ := moves_opened inv active
    have inv₁ := moves₁.inv inv
    obtain ⟨σ₂, moves₂, same, raised⟩ := moves_raised inv₁ opened C.ntot (Nat.le_refl _)
    have inv₂ := moves₂.inv inv₁
    obtain ⟨σ₃, moves₃, pc⟩ := moves_master inv₂ active (same ▸ opened) raised
    have inv₃ := moves₃.inv inv₂
    have raised₃ : ∀ m < C.ntot, m ≠ 0 → (σ₃.pc m).raised := by
      intro m less other
      rw [pc, Function.update_of_ne other]
      exact raised m less other
    obtain ⟨σ₄, moves₄, all, _⟩ := moves_loop inv₃ (by rw [pc, Function.update_self]) raised₃ C.ntot (Nat.le_refl _)
    exact ⟨σ₄, moves₁.trans (moves₂.trans (moves₃.trans moves₄)), all⟩
  · exact ⟨σ, .refl, fun n less => absurd less (by omega)⟩

end

/-- The hardware has written the tables back before the master does, and the other node has loaded them before they were filled. -/
theorem startup_can_finish_stale : ∃ σ σ', Sys.Run twoNodes (fun _ => 5) σ ∧ (σ.line (.table 0)).mem = 7 ∧ (σ.line (.table 0)).view 1 = 5 ∧
    (σ.line .gBar).view 1 = 5 ∧ Moves twoNodes σ σ' ∧ ∀ n < twoNodes.ntot, σ'.pc n = .loop := by
  let acts : List Act := [.prefetch 1 (.table 0), .prefetch 1 .gBar, .prefetch 0 (.bar 1)] ++ List.replicate 11 (.go 0) ++
    [.writeBack 0 (.table 0)]
  have early : (acts.foldlM (Sys.step twoNodes) (.init fun _ => 5)).map (fun σ =>
      ((σ.line (.table 0)).mem, (σ.line (.table 0)).view 1, (σ.line .gBar).view 1)) = some (7, 5, 5) := by decide
  obtain ⟨σ, run, seen⟩ := Option.map_eq_some_iff.mp early
  simp only [Prod.mk.injEq] at seen
  have reached := Sys.Run.of_acts _ .init run
  obtain ⟨σ', moves, all⟩ := startup_can_finish twoNodes (fun _ => 5) (by decide) σ reached
  exact ⟨σ, σ', reached, seen.1, seen.2.1, seen.2.2, moves, all⟩

end BiProject.Startup
