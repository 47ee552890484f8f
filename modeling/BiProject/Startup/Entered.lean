import BiProject.Startup.Lines

/-!
# No server before all nodes are there

Each step of a node keeps what the lines may have. So a node that reads a raised entry knows how far its owner has come: the master
when it goes through `bars`, and the others when they wait for the master's.
-/

namespace BiProject.Startup
set_option autoImplicit false
open BiProject.Lib

section
variable {C : Config} {pc pc' : Nat → Pc} {l : LineId} {L : Line Nat Nat}

/-! ## The other nodes -/

section
variable {σ : Sys} {n : Nat} {p : Pc}

/-- A step on one line keeps the invariant if that line is right afterwards and the others do not mind where the node has
come, -/
theorem Inv.on (inv : Inv C σ) {l : LineId} {f : Line Nat Nat → Line Nat Nat} (pcs : PcOk C (Function.update σ.pc n p))
    (others : ∀ l' ∈ C.lines, l' ≠ l → LineOk C σ.pc l' (σ.line l') → LineOk C (Function.update σ.pc n p) l' (σ.line l'))
    (here : l ∈ C.lines → LineOk C σ.pc l (σ.line l) → LineOk C (Function.update σ.pc n p) l (f (σ.line l))) : Inv C (σ.on n l f p) := by
  refine ⟨pcs, fun l' member => ?_⟩
  by_cases same : l' = l
  · subst same
    simp only [Sys.on, Function.update_self]
    exact here member (inv.lines l' member)
  · simp only [Sys.on, Function.update_of_ne same]
    exact others l' member same (inv.lines l' member)

/-- and a step on no line if none minds. -/
theorem Inv.jump (inv : Inv C σ) (pcs : PcOk C (Function.update σ.pc n p))
    (others : ∀ l' ∈ C.lines, LineOk C σ.pc l' (σ.line l') → LineOk C (Function.update σ.pc n p) l' (σ.line l')) : Inv C (σ.jump n p) :=
  ⟨pcs, fun l' member => others l' member (inv.lines l' member)⟩

/-- Nothing but the node's own position has changed for a line, and no one waits for it. -/
theorem LineOk.slave_same (ok : LineOk C pc l L) (other : n ≠ 0) (arrived : (pc n).arrived → p.arrived)
    (seen : p.seenAt l → (pc n).seenAt l) (raising : ¬ p.raising) (raised : p.raised → (pc n).raised) :
    LineOk C (Function.update pc n p) l L :=
  ok.slave other arrived (fun here => Or.inl (seen here)) (fun _ here => absurd here raising) fun _ here => Or.inl (raised here)

/-- A node flushes `g_bar`. -/
theorem Inv.gFlush (inv : Inv C σ) (other : n ≠ 0) (at_ : σ.pc n = .gFlush) : Inv C (σ.on n .gBar (fun l => l.clflush n) .gLoad) := by
  apply inv.on
  · apply inv.pcs.slaveStep other (Or.inr (Or.inr rfl)) <;> simp [at_]
  · intro l member differ ok
    apply ok.slave_same other <;> simp [at_]
  · intro member ok
    apply (ok.clflush inv.pcs n).slave_same other <;> simp [at_]

/-- A node that sees 1 in `g_bar` knows that it is open. -/
theorem Inv.opened_of_view (inv : Inv C σ) (view : (σ.line .gBar).view n = 1) : (σ.pc 0).opened := by
  by_contra shut
  exact ((inv.lines _ C.gBar).shut rfl shut).view n view

/-- It goes on when it reads 1. -/
theorem Inv.gLoad (inv : Inv C σ) (other : n ≠ 0) (at_ : σ.pc n = .gLoad) :
    Inv C (σ.on n .gBar (fun l => l.load n) (if (σ.line .gBar).view n = 1 then .flushAll C.lines else .gFlush)) := by
  split
  · rename_i view
    apply inv.on
    · apply inv.pcs.slaveStep other (Or.inl (inv.opened_of_view view)) <;> simp [at_]
    · intro l member differ ok
      apply ok.slave_same other <;> simp [at_, member]
    · intro member ok
      apply (ok.load inv.pcs n).slave_same other <;> simp [at_, member]
  · apply inv.on
    · apply inv.pcs.slaveStep other (Or.inr (Or.inl rfl)) <;> simp [at_]
    · intro l member differ ok
      apply ok.slave_same other <;> simp [at_]
    · intro member ok
      apply (ok.load inv.pcs n).slave_same other <;> simp [at_]

/-- A node that is past `bi_wait_barrier` knows that `g_bar` is open. -/
theorem PcOk.opened_of_late (pcs : PcOk C pc) (other : n ≠ 0) (late : pc n ≠ .gFlush ∧ pc n ≠ .gLoad) : (pc 0).opened := by
  by_contra shut
  rcases pcs.early shut n other with here | here
  · exact late.1 here
  · exact late.2 here

/-- It flushes all lines of the mapping, one after another, -/
theorem Inv.flushAll (inv : Inv C σ) (other : n ≠ 0) {l : LineId} {rest : List LineId} (at_ : σ.pc n = .flushAll (l :: rest)) :
    Inv C (σ.on n l (fun l => l.clflush n) (.flushAll rest)) := by
  have opened := inv.pcs.opened_of_late other (by simp [at_])
  apply inv.on
  · apply inv.pcs.slaveStep other (Or.inl opened) <;> simp [at_]
  · intro l' member differ ok
    apply ok.slave_same other <;> simp [at_, differ]
  · intro member ok
    apply (ok.clflush inv.pcs n).slave other
    · simp [at_]
    · exact fun _ => Or.inr (Line.fresh_of_none (Line.clflush_copy _ n))
    · simp
    · simp

/-- until none is left. -/
theorem Inv.flushAll_nil (inv : Inv C σ) (other : n ≠ 0) (at_ : σ.pc n = .flushAll []) : Inv C (σ.jump n .barStore) := by
  have opened := inv.pcs.opened_of_late other (by simp [at_])
  apply inv.jump
  · apply inv.pcs.slaveStep other (Or.inl opened) <;> simp [at_]
  · intro l' member ok
    apply ok.slave_same other <;> simp [at_]

/-- It raises its own entry, -/
theorem Inv.barStore (inv : Inv C σ) (other : n ≠ 0) (at_ : σ.pc n = .barStore) :
    Inv C (σ.on n (.bar n) (fun l => l.store n fun _ => 1) .barWb) := by
  have opened := inv.pcs.opened_of_late other (by simp [at_])
  apply inv.on
  · apply inv.pcs.slaveStep other (Or.inl opened) <;> simp [at_]
  · intro l' member differ ok
    apply ok.slave other <;> simp [at_, differ]
  · intro member ok
    have quiet : Quiet σ.pc (.bar n) := by simp [Quiet, at_]
    obtain ⟨holds, others⟩ := store_holds (σ.line (.bar n)) n fun m _ => ok.clean_of_settled (settledAt_of_opened opened) quiet m
    apply lineOk_raising
    · rw [Function.update_of_ne (Ne.symm other)]
      exact opened
    · simp [Quiet]
    · simp [Raised]
    · exact holds
    · exact others

/-- and writes it back. -/
theorem Inv.barWb (inv : Inv C σ) (other : n ≠ 0) (at_ : σ.pc n = .barWb) : Inv C (σ.on n (.bar n) (fun l => l.clwb n) .bar0Flush) := by
  have opened := inv.pcs.opened_of_late other (by simp [at_])
  apply inv.on
  · apply inv.pcs.slaveStep other (Or.inl opened) <;> simp [at_]
  · intro l' member differ ok
    apply ok.slave other <;> simp [at_, differ]
  · intro member ok
    have raising : Raising σ.pc (.bar n) := by simp [Raising, at_]
    obtain ⟨mem, clean⟩ := clwb_settles (ok.raising raising) fun m differ => ok.clean_of_raising inv.pcs raising differ
    apply lineOk_raised
    · rw [Function.update_of_ne (Ne.symm other)]
      exact opened
    · simp [Quiet]
    · simp [Raising]
    · exact mem
    · exact clean

/-- A node that sees the master's entry raised knows that the master has arrived. -/
theorem Inv.arrived_of_view (inv : Inv C σ) (other : n ≠ 0) (active : 0 < C.ntot) (at_ : σ.pc n = .bar0Load)
    (view : (σ.line (.bar 0)).view n ≠ 0) : (σ.pc 0).arrived := by
  by_contra quiet
  have opened := inv.pcs.opened_of_late other (by simp [at_])
  have ok := inv.lines _ (C.bars 0 active)
  have seen : (σ.pc n).seenAt (.bar 0) := by simp [at_]
  have settled : (σ.line (.bar 0)).Settled n (C.content (.bar 0)) :=
    ⟨(ok.settled (settledAt_of_opened opened) quiet).1, ok.fresh n other seen quiet⟩
  exact view settled.view

/-- Then it reads the master's, -/
theorem Inv.bar0Load (inv : Inv C σ) (other : n ≠ 0) (active : 0 < C.ntot) (at_ : σ.pc n = .bar0Load) :
    Inv C (σ.on n (.bar 0) (fun l => l.load n) (if (σ.line (.bar 0)).view n = 0 then .bar0Flush else .loop)) := by
  have opened := inv.pcs.opened_of_late other (by simp [at_])
  split
  · apply inv.on
    · apply inv.pcs.slaveStep other (Or.inl opened) <;> simp [at_]
    · intro l' member differ ok
      apply ok.slave_same other <;> simp [at_]
    · intro member ok
      apply (ok.load inv.pcs n).slave_same other <;> simp [at_]
  · rename_i view
    apply inv.on
    · apply inv.pcs.slaveStep other (Or.inl opened)
      · simp
      · simp
      · exact fun _ => inv.arrived_of_view other active at_ view
    · intro l' member differ ok
      apply ok.slave_same other <;> simp [at_]
    · intro member ok
      apply (ok.load inv.pcs n).slave_same other <;> simp [at_]

/-- again and again. -/
theorem Inv.bar0Flush (inv : Inv C σ) (other : n ≠ 0) (at_ : σ.pc n = .bar0Flush) :
    Inv C (σ.on n (.bar 0) (fun l => l.clflush n) .bar0Load) := by
  have opened := inv.pcs.opened_of_late other (by simp [at_])
  apply inv.on
  · apply inv.pcs.slaveStep other (Or.inl opened) <;> simp [at_]
  · intro l' member differ ok
    apply ok.slave_same other <;> simp [at_]
  · intro member ok
    apply (ok.clflush inv.pcs n).slave_same other <;> simp [at_]

/-! ## The master fills the mapping -/

/-- Nothing is raised before the master has opened `g_bar`. -/
theorem opened_of_raising (pcs : PcOk C pc) (here : Raising pc l ∨ Raised pc l) : (pc 0).opened := by
  cases l with
  | gBar =>
    rcases here with here | here
    · simp only [Raising] at here
      simp [here]
    · exact here.1
  | bar nd =>
    by_cases master : nd = 0
    · subst master
      rcases here with here | here <;> simp only [Raising, Raised] at here <;> revert here <;> cases pc 0 <;> simp
    · apply pcs.opened_of_late master
      rcases here with here | here <;> constructor <;> intro at_ <;> simp [Raising, Raised, at_] at here
  | table i => exact absurd here (by simp [Raising, Raised])

/-- While it is shut only the master stores to a line. -/
theorem lineOk_shut (pcs : PcOk C pc) (shut : ¬ (pc 0).opened) (clean : ∀ m ≠ 0, L.Clean m) (only : l = .gBar → L.Only (· ≠ 1))
    (held : (pc 0).heldAt l → L.Holds 0 (C.content l)) (settled : (pc 0).settledAt l → l ≠ .gBar → L.Settled 0 (C.content l)) :
    LineOk C pc l L := by
  constructor
  · intro m other _
    exact clean m other
  · intro opened
    exact absurd opened shut
  · intro gBar _
    exact only gBar
  · exact held
  · intro here quiet
    apply settled here
    rintro rfl
    exact quiet
  · intro m other seen
    exact absurd (opened_of_seenAt pcs other seen) shut
  · intro here
    exact absurd (opened_of_raising pcs (Or.inl here)) shut
  · intro here
    exact absurd (opened_of_raising pcs (Or.inr here)) shut

/-- A node that has not come so far has not arrived, -/
theorem not_arrived_of_shut {p : Pc} (shut : ¬ p.opened) : ¬ p.arrived := by
  cases p <;> simp_all

/-- and no other line is raised. -/
theorem quiet_of_shut (pcs : PcOk C pc) (shut : ¬ (pc 0).opened) (notG : l ≠ .gBar) : Quiet pc l := by
  cases l with
  | gBar => exact notG rfl
  | bar nd =>
    by_cases master : nd = 0
    · subst master
      exact not_arrived_of_shut shut
    · rcases pcs.early shut nd master with here | here <;> simp [Quiet, here]
  | table i => trivial

/-- A step of the master before `g_bar` is open. -/
theorem Inv.fillOn (inv : Inv C σ) (shut : ¬ (σ.pc 0).opened) {l : LineId} {f : Line Nat Nat → Line Nat Nat} (shut' : ¬ p.opened) (role : p.IsMaster)
    (held : ∀ l' ∈ C.lines, l' ≠ l → p.heldAt l' → (σ.pc 0).heldAt l')
    (settled : ∀ l' ∈ C.lines, l' ≠ l → p.settledAt l' → (σ.pc 0).settledAt l')
    (copies : ∀ m ≠ 0, (f (σ.line l)).copy m = (σ.line l).copy m) (only : l = .gBar → (σ.line l).Only (· ≠ 1) → (f (σ.line l)).Only (· ≠ 1))
    (heldHere : l ∈ C.lines → p.heldAt l → (f (σ.line l)).Holds 0 (C.content l))
    (settledHere : l ∈ C.lines → p.settledAt l → l ≠ .gBar → (f (σ.line l)).Settled 0 (C.content l)) : Inv C (σ.on 0 l f p) := by
  have self : Function.update σ.pc 0 p 0 = p := Function.update_self ..
  have pcs : PcOk C (Function.update σ.pc 0 p) := by
    apply inv.pcs.masterStep role (fun here => absurd here shut) (fun here => absurd here (not_arrived_of_shut shut))
    · rintro nd rfl
      exact absurd trivial shut'
    · rintro nd (rfl | rfl) <;> exact absurd trivial shut'
    · intro k _ seen
      cases p <;> simp_all
  apply inv.on pcs
  · intro l' member differ ok
    apply lineOk_shut pcs (by rwa [self]) (fun m other => ok.clean_of_shut inv.pcs shut other)
    · exact fun gBar => ok.shut gBar shut
    · rw [self]
      exact fun here => ok.held (held l' member differ here)
    · rw [self]
      exact fun here notG => ok.settled (settled l' member differ here) (quiet_of_shut inv.pcs shut notG)
  · intro member ok
    apply lineOk_shut pcs (by rwa [self])
    · intro m other v here
      rw [copies m other] at here
      exact ok.clean_of_shut inv.pcs shut other v here
    · exact fun gBar => only gBar (ok.shut gBar shut)
    · rw [self]
      exact heldHere member
    · rw [self]
      exact settledHere member

/-- A step on no line is a step on any. -/
theorem jump_eq_on (σ : Sys) (n : Nat) (p : Pc) (l : LineId) : σ.jump n p = σ.on n l id p := by
  simp [Sys.jump, Sys.on]

/-- The master clears a line, or has cleared all of them. -/
theorem Inv.memset {rest : List LineId} (inv : Inv C σ) (at_ : σ.pc 0 = .memset rest) {σ' : Sys} (step : σ.go C 0 = some σ') : Inv C σ' := by
  have shut : ¬ (σ.pc 0).opened := by simp [at_]
  cases rest with
  | cons l rest =>
    simp only [Sys.go, at_, Option.some.injEq] at step
    subst step
    apply inv.fillOn shut
    · simp
    · simp
    · simp
    · simp
    · exact fun m other => Line.store_other _ _ other
    · exact fun _ only => only.store 0 (by decide)
    · simp
    · simp
  | nil =>
    simp only [Sys.go, at_, Option.some.injEq] at step
    subst step
    rw [jump_eq_on σ 0 _ .gBar]
    apply inv.fillOn shut
    · simp
    · simp
    · simp +contextual
    · simp
    · simp
    · simp
    · simp +contextual
    · simp

/-- The master stores to a line what `init_global_memory` leaves in it, or has done so for all of them. -/
theorem Inv.fill {rest : List LineId} (inv : Inv C σ) (at_ : σ.pc 0 = .fill rest) {σ' : Sys} (step : σ.go C 0 = some σ') : Inv C σ' := by
  have shut : ¬ (σ.pc 0).opened := by simp [at_]
  cases rest with
  | cons l rest =>
    simp only [Sys.go, at_, Option.some.injEq] at step
    subst step
    apply inv.fillOn shut
    · simp
    · simp
    · simp +contextual [at_]
    · simp
    · exact fun m other => Line.store_other _ _ other
    · rintro rfl only
      exact only.store 0 (by simp [Config.content])
    · exact fun _ _ => Line.Holds.store _ 0 _
    · simp
  | nil =>
    simp only [Sys.go, at_, Option.some.injEq] at step
    subst step
    rw [jump_eq_on σ 0 _ .gBar]
    apply inv.fillOn shut
    · simp
    · simp
    · simp [at_]
    · simp +contextual
    · simp
    · simp
    · exact fun member _ => (inv.lines _ member).held (by simp [at_])
    · simp +contextual

/-- The master writes a line back, or has written all of them back. -/
theorem Inv.wbAll {rest : List LineId} (inv : Inv C σ) (at_ : σ.pc 0 = .wbAll rest) {σ' : Sys} (step : σ.go C 0 = some σ') : Inv C σ' := by
  have shut : ¬ (σ.pc 0).opened := by simp [at_]
  cases rest with
  | cons l rest =>
    simp only [Sys.go, at_, Option.some.injEq] at step
    subst step
    apply inv.fillOn shut
    · simp
    · simp
    · simp [at_]
    · simp +contextual [at_]
    · exact fun m other => Line.clwb_other _ other
    · exact fun _ only => only.clwb 0
    · exact fun member _ => Or.inr ((inv.lines _ member).held (by simp [at_])).clwb
    · exact fun member _ _ => ((inv.lines _ member).held (by simp [at_])).clwb
  | nil =>
    simp only [Sys.go, at_, Option.some.injEq] at step
    subst step
    rw [jump_eq_on σ 0 _ .gBar]
    apply inv.fillOn shut
    · simp
    · simp
    · simp
    · simp [at_]
    · simp
    · simp
    · simp
    · exact fun _ _ notG => absurd rfl notG

/-- **A step of the master while it fills the mapping.** -/
theorem Inv.fillStep (inv : Inv C σ) (shut : ¬ (σ.pc 0).opened) (more : σ.pc 0 ≠ .store1) {σ' : Sys} (step : σ.go C 0 = some σ') :
    Inv C σ' := by
  cases at_ : σ.pc 0 with
  | store0 =>
    simp only [Sys.go, at_, Option.some.injEq] at step
    subst step
    apply inv.fillOn shut
    · simp
    · simp
    · simp
    · simp
    · exact fun m other => Line.store_other _ _ other
    · exact fun _ only => only.store 0 (by decide)
    · simp
    · simp
  | wb0 =>
    simp only [Sys.go, at_, Option.some.injEq] at step
    subst step
    apply inv.fillOn shut
    · simp
    · simp
    · simp
    · simp
    · exact fun m other => Line.clwb_other _ other
    · exact fun _ only => only.clwb 0
    · simp
    · simp
  | memset rest => exact inv.memset at_ step
  | fill rest => exact inv.fill at_ step
  | wbAll rest => exact inv.wbAll at_ step
  | store1 => exact absurd at_ more
  | wb1 | gFlush | gLoad | flushAll | waitFlush | waitLoad | bar0Store | bar0Wb | barStore | barWb | bar0Flush | bar0Load | loop => simp [at_] at shut

/-! ## The master goes on -/

/-- A step of the master raises nothing but what it stores to, -/
theorem raising_of_update (gBar : l = .gBar → p ≠ .wb1) (bar : l = .bar 0 → ¬ p.raising) (here : Raising (Function.update pc 0 p) l) :
    Raising pc l := by
  cases l with
  | gBar => exact absurd here (by simpa [Raising] using gBar rfl)
  | bar nd =>
    by_cases master : nd = 0
    · subst master
      rw [Raising, Function.update_self] at here
      exact absurd here (bar rfl)
    · rw [Raising, Function.update_of_ne master] at here
      exact here
  | table i => exact absurd here id

/-- and nothing is raised by it that was not. -/
theorem raised_of_update (gBar : l = .gBar → Raised pc .gBar) (bar : l = .bar 0 → p.raised → (pc 0).raised)
    (here : Raised (Function.update pc 0 p) l) : Raised pc l := by
  cases l with
  | gBar => exact gBar rfl
  | bar nd =>
    by_cases master : nd = 0
    · subst master
      rw [Raised, Function.update_self] at here
      exact bar rfl here
    · rw [Raised, Function.update_of_ne master] at here
      exact here
  | table i => exact absurd here id

/-- The master opens `g_bar`. -/
theorem Inv.store1 (inv : Inv C σ) (at_ : σ.pc 0 = .store1) : Inv C (σ.on 0 .gBar (fun l => l.store 0 fun _ => 1) .wb1) := by
  have shut : ¬ (σ.pc 0).opened := by simp [at_]
  apply inv.on
  · apply inv.pcs.masterStep <;> simp [at_]
  · intro l member differ ok
    have quiet := quiet_of_shut inv.pcs shut differ
    have settled := ok.settled (by simp [at_]) quiet
    apply ok.master
    · simp [at_]
    · simp [at_]
    · exact fun _ => Or.inr settled.2.clean
    · simp
    · exact fun _ => Or.inr settled
    · exact fun here => Or.inl (raising_of_update (fun gBar => absurd gBar differ) (fun _ => id) here)
    · exact fun here => Or.inl (raised_of_update (fun gBar => absurd gBar differ) (by simp) here)
  · intro member ok
    obtain ⟨holds, others⟩ := store_holds (σ.line .gBar) 0 fun m other => ok.clean_of_shut inv.pcs shut other
    apply lineOk_raising
    · simp
    · simp [Quiet]
    · simp [Raised]
    · exact holds
    · exact others

/-- A step of the master that raises nothing. -/
theorem LineOk.master_same (ok : LineOk C pc l L) (opened : (pc 0).opened) (opened' : p.opened) (arrived : (pc 0).arrived → p.arrived)
    (notWb : pc 0 ≠ .wb1 ∨ l ≠ .gBar) (notWb' : p ≠ .wb1) (raising : l = .bar 0 → ¬ p.raising) (raised : l = .bar 0 → p.raised → (pc 0).raised) :
    LineOk C (Function.update pc 0 p) l L := by
  apply ok.master arrived (fun _ => opened') (fun _ => Or.inl opened)
  · exact fun here => absurd opened' (not_opened_of_heldAt here)
  · exact fun _ => Or.inl (settledAt_of_opened opened)
  · exact fun here => Or.inl (raising_of_update (fun _ => notWb') raising here)
  · exact fun here => Or.inl (raised_of_update (fun gBar => ⟨opened, notWb.resolve_right fun differ => differ gBar⟩) raised here)

/-- It writes `g_bar` back. -/
theorem Inv.wb1 (inv : Inv C σ) (at_ : σ.pc 0 = .wb1) : Inv C (σ.on 0 .gBar (fun l => l.clwb 0) (.waitFlush 1)) := by
  apply inv.on
  · apply inv.pcs.masterStep
    · simp
    · simp
    · simp [at_]
    · simp
    · simp +contextual [eq_comm]
    · intro k notMaster seen
      simp only [Pc.count] at seen
      omega
  · intro l member differ ok
    apply ok.master_same <;> simp [at_, differ]
  · intro member ok
    have raising : Raising σ.pc .gBar := at_
    obtain ⟨mem, clean⟩ := clwb_settles (ok.raising raising) fun m differ => ok.clean_of_raising inv.pcs raising differ
    apply lineOk_raised
    · simp
    · simp [Quiet]
    · simp [Raising]
    · exact mem
    · exact clean

/-- It goes through the entries of the nodes, -/
theorem Inv.waitFlush (inv : Inv C σ) {nd : Nat} (at_ : σ.pc 0 = .waitFlush nd) (active : nd < C.ntot) :
    Inv C (σ.on 0 (.bar nd) (fun l => l.clflush 0) (.waitLoad nd)) := by
  apply inv.on
  · apply inv.pcs.masterStep
    · simp
    · simp
    · simp [at_]
    · rintro nd' here
      cases here
      exact active
    · rintro nd' (here | here) <;> cases here
      exact inv.pcs.started nd (Or.inl at_)
    · intro k notMaster seen
      exact inv.pcs.counted k notMaster (by simpa [at_] using seen)
  · intro l member differ ok
    apply ok.master_same <;> simp [at_]
  · intro member ok
    apply (ok.clflush inv.pcs 0).master_same <;> simp [at_]

/-- until all are raised. -/
theorem Inv.waitFlush_all (inv : Inv C σ) {nd : Nat} (at_ : σ.pc 0 = .waitFlush nd) (all : ¬ nd < C.ntot) : Inv C (σ.jump 0 .bar0Store) := by
  apply inv.jump
  · apply inv.pcs.masterStep
    · simp
    · simp
    · simp [at_]
    · simp
    · simp
    · intro k notMaster seen
      simp only [Pc.count] at seen
      apply inv.pcs.counted k notMaster
      simp only [at_, Pc.count]
      omega
  · intro l member ok
    apply ok.master_same <;> simp [at_]

/-- The master sees an entry raised only by a node that has arrived. -/
theorem Inv.arrived_of_master_view (inv : Inv C σ) {nd : Nat} (at_ : σ.pc 0 = .waitLoad nd) (view : (σ.line (.bar nd)).view 0 ≠ 0) :
    (σ.pc nd).arrived := by
  by_contra quiet
  have ok := inv.lines _ (C.bars nd (inv.pcs.bound nd at_))
  exact view (ok.settled (by simp [at_]) quiet).view

/-- It stays at an entry as long as it reads 0. -/
theorem Inv.waitLoad (inv : Inv C σ) {nd : Nat} (at_ : σ.pc 0 = .waitLoad nd) :
    Inv C (σ.on 0 (.bar nd) (fun l => l.load 0) (if (σ.line (.bar nd)).view 0 = 0 then .waitFlush nd else .waitFlush (nd + 1))) := by
  split
  · apply inv.on
    · apply inv.pcs.masterStep
      · simp
      · simp
      · simp [at_]
      · simp
      · rintro nd' (here | here) <;> cases here
        exact inv.pcs.started nd (Or.inr at_)
      · intro k notMaster seen
        exact inv.pcs.counted k notMaster (by simpa [at_] using seen)
    · intro l member differ ok
      apply ok.master_same <;> simp [at_]
    · intro member ok
      apply (ok.load inv.pcs 0).master_same <;> simp [at_]
  · rename_i view
    apply inv.on
    · apply inv.pcs.masterStep
      · simp
      · simp
      · simp [at_]
      · simp
      · rintro nd' (here | here) <;> cases here
        simp
      · intro k notMaster seen
        simp only [Pc.count] at seen
        by_cases last : k = nd
        · subst last
          exact inv.arrived_of_master_view at_ view
        · apply inv.pcs.counted k notMaster
          simp only [at_, Pc.count]
          omega
    · intro l member differ ok
      apply ok.master_same <;> simp [at_]
    · intro member ok
      apply (ok.load inv.pcs 0).master_same <;> simp [at_]

/-- Last it raises its own -/
theorem Inv.bar0Store (inv : Inv C σ) (at_ : σ.pc 0 = .bar0Store) : Inv C (σ.on 0 (.bar 0) (fun l => l.store 0 fun _ => 1) .bar0Wb) := by
  apply inv.on
  · apply inv.pcs.masterStep
    · simp
    · simp
    · simp
    · simp
    · simp
    · intro k notMaster seen
      exact inv.pcs.counted k notMaster (by simpa [at_] using seen)
  · intro l member differ ok
    apply ok.master_same <;> simp [at_, differ]
  · intro member ok
    have quiet : Quiet σ.pc (.bar 0) := by simp [Quiet, at_]
    obtain ⟨holds, others⟩ := store_holds (σ.line (.bar 0)) 0 fun m _ => ok.clean_of_settled (by simp [at_]) quiet m
    apply lineOk_raising
    · simp
    · simp [Quiet]
    · simp [Raised]
    · exact holds
    · exact others

/-- and writes that back. -/
theorem Inv.bar0Wb (inv : Inv C σ) (at_ : σ.pc 0 = .bar0Wb) : Inv C (σ.on 0 (.bar 0) (fun l => l.clwb 0) .loop) := by
  apply inv.on
  · apply inv.pcs.masterStep
    · simp
    · simp
    · simp
    · simp
    · simp
    · intro k notMaster seen
      exact inv.pcs.counted k notMaster (by simpa [at_] using seen)
  · intro l member differ ok
    apply ok.master_same <;> simp [at_, differ]
  · intro member ok
    have raising : Raising σ.pc (.bar 0) := by simp [Raising, at_]
    obtain ⟨mem, clean⟩ := clwb_settles (ok.raising raising) fun m differ => ok.clean_of_raising inv.pcs raising differ
    apply lineOk_raised
    · simp
    · simp [Quiet]
    · simp [Raising]
    · exact mem
    · exact clean

/-! ## Every run -/

/-- What the hardware does with a line keeps the invariant if the line stays right. -/
theorem Inv.touch (inv : Inv C σ) (l : LineId) {f : Line Nat Nat → Line Nat Nat}
    (keeps : LineOk C σ.pc l (σ.line l) → LineOk C σ.pc l (f (σ.line l))) :
    Inv C (σ.touch l f) := by
  refine ⟨inv.pcs, fun l' member => ?_⟩
  by_cases same : l' = l
  · subst same
    simp only [Sys.touch, Function.update_self]
    exact keeps (inv.lines l' member)
  · simp only [Sys.touch, Function.update_of_ne same]
    exact inv.lines l' member

/-- Each step of the master keeps the invariant, -/
theorem Inv.goMaster (inv : Inv C σ) {σ' : Sys} (step : σ.go C 0 = some σ') : Inv C σ' := by
  by_cases shut : (σ.pc 0).opened ∨ σ.pc 0 = .store1
  · have role := inv.pcs.master
    cases at_ : σ.pc 0 with
    | store0 | wb0 | memset | fill | wbAll => simp [at_] at shut
    | gFlush | gLoad | flushAll | barStore | barWb | bar0Flush | bar0Load => simp [at_] at role
    | store1 =>
      simp only [Sys.go, at_, Option.some.injEq] at step
      exact step ▸ inv.store1 at_
    | wb1 =>
      simp only [Sys.go, at_, Option.some.injEq] at step
      exact step ▸ inv.wb1 at_
    | waitFlush nd =>
      simp only [Sys.go, at_] at step
      split at step
      · rename_i active
        exact Option.some.inj step ▸ inv.waitFlush at_ active
      · rename_i all
        exact Option.some.inj step ▸ inv.waitFlush_all at_ all
    | waitLoad nd =>
      simp only [Sys.go, at_, Option.some.injEq] at step
      exact step ▸ inv.waitLoad at_
    | bar0Store =>
      simp only [Sys.go, at_, Option.some.injEq] at step
      exact step ▸ inv.bar0Store at_
    | bar0Wb =>
      simp only [Sys.go, at_, Option.some.injEq] at step
      exact step ▸ inv.bar0Wb at_
    | loop => simp [Sys.go, at_] at step
  · rw [not_or] at shut
    exact inv.fillStep shut.1 shut.2 step

/-- each step of another node, -/
theorem Inv.goSlave (inv : Inv C σ) (other : n ≠ 0) (active : 0 < C.ntot) {σ' : Sys} (step : σ.go C n = some σ') : Inv C σ' := by
  have role := inv.pcs.slave n other
  cases at_ : σ.pc n with
  | store0 | wb0 | memset | fill | wbAll | store1 | wb1 | waitFlush | waitLoad | bar0Store | bar0Wb => simp [at_] at role
  | gFlush =>
    simp only [Sys.go, at_, Option.some.injEq] at step
    exact step ▸ inv.gFlush other at_
  | gLoad =>
    simp only [Sys.go, at_, Option.some.injEq] at step
    exact step ▸ inv.gLoad other at_
  | flushAll rest =>
    cases rest with
    | cons l rest =>
      simp only [Sys.go, at_, Option.some.injEq] at step
      exact step ▸ inv.flushAll other at_
    | nil =>
      simp only [Sys.go, at_, Option.some.injEq] at step
      exact step ▸ inv.flushAll_nil other at_
  | barStore =>
    simp only [Sys.go, at_, Option.some.injEq] at step
    exact step ▸ inv.barStore other at_
  | barWb =>
    simp only [Sys.go, at_, Option.some.injEq] at step
    exact step ▸ inv.barWb other at_
  | bar0Flush =>
    simp only [Sys.go, at_, Option.some.injEq] at step
    exact step ▸ inv.bar0Flush other at_
  | bar0Load =>
    simp only [Sys.go, at_, Option.some.injEq] at step
    exact step ▸ inv.bar0Load other active at_
  | loop => simp [Sys.go, at_] at step

/-- and so each step. -/
theorem Inv.step (inv : Inv C σ) {a : Act} {σ' : Sys} (step : σ.step C a = some σ') : Inv C σ' := by
  cases a with
  | go n =>
    simp only [Sys.step] at step
    split at step
    · rename_i active
      by_cases master : n = 0
      · subst master
        exact inv.goMaster step
      · exact inv.goSlave master (by omega) step
    · cases step
  | prefetch n l => exact Option.some.inj step ▸ inv.touch l fun ok => ok.load inv.pcs n
  | writeBack n l => exact Option.some.inj step ▸ inv.touch l fun ok => ok.writeBack inv.pcs n
  | evict n l => exact Option.some.inj step ▸ inv.touch l fun ok => ok.clflush inv.pcs n

/-- It holds at the start, unless the file has a 1 in `g_bar`, -/
theorem Inv.init {old : LineId → Nat} (closed : old .gBar ≠ 1) : Inv C (.init old) := by
  have start : ∀ n ≠ 0, (Sys.init old).pc n = .gFlush := fun n other => if_neg other
  have pcs : PcOk C (Sys.init old).pc := by
    constructor
    · simp [Sys.init]
    · intro n other
      simp [start n other]
    · exact fun _ n other => Or.inl (start n other)
    · simp [Sys.init]
    · intro n other here
      simp [start n other] at here
    · simp [Sys.init]
    · simp [Sys.init]
  refine ⟨pcs, fun l member => ?_⟩
  apply lineOk_shut pcs
  · simp [Sys.init]
  · exact fun m _ => Line.clean_of_none rfl
  · rintro rfl
    exact ⟨closed, fun n v d here => by cases here⟩
  · simp [Sys.init]
  · simp [Sys.init]

/-- and so throughout. -/
theorem Sys.Run.inv {old : LineId → Nat} (closed : old .gBar ≠ 1) (run : Sys.Run C old σ) : Inv C σ := by
  induction run with
  | init => exact Inv.init closed
  | step _ step ih => exact ih.step step

/-- **No server runs before all nodes are there.** Whatever the caches do, once a node is in the loop of `bi_server_run` every
active node has raised its entry of `bars`, and the node sees what the master put in the tables. -/
theorem no_server_before_all (C : Config) (old : LineId → Nat) (closed : old .gBar ≠ 1) (σ : Sys) (run : Sys.Run C old σ) (n : Nat)
    (enters : σ.pc n = .loop) : (∀ k < C.ntot, (σ.pc k).arrived) ∧ ∀ i, .table i ∈ C.lines → (σ.line (.table i)).view n = C.tables i := by
  have inv := run.inv closed
  have master : (σ.pc 0).arrived := by
    by_cases same : n = 0
    · subst same
      simp [enters]
    · exact inv.pcs.entered n same enters
  have opened : (σ.pc 0).opened := by
    revert master
    cases σ.pc 0 <;> simp
  constructor
  · intro k active
    by_cases same : k = 0
    · subst same
      exact master
    · apply inv.pcs.counted k same
      have role := inv.pcs.master
      revert master role
      cases σ.pc 0 <;> simp [active]
  · intro i member
    have ok := inv.lines _ member
    have settled := ok.settled (settledAt_of_opened opened) trivial
    by_cases same : n = 0
    · subst same
      exact settled.view
    · have fresh := ok.fresh n same (by simp [enters]) trivial
      exact Line.Settled.view ⟨settled.1, fresh⟩

/-- A list of steps that goes through is a run. -/
theorem Sys.Run.of_acts {old : LineId → Nat} (acts : List Act) : ∀ {σ σ' : Sys}, Sys.Run C old σ → acts.foldlM (Sys.step C) σ = some σ' →
    Sys.Run C old σ' := by
  induction acts with
  | nil =>
    intro σ σ' run same
    exact Option.some.inj same ▸ run
  | cons a acts ih =>
    intro σ σ' run steps
    simp only [List.foldlM_cons, Option.bind_eq_bind, Option.bind_eq_some_iff] at steps
    obtain ⟨τ, step, rest⟩ := steps
    exact ih (.step run step) rest

end

end

/-- Two nodes and one line of tables. -/
def twoNodes : Config where
  ntot := 2
  lines := [.gBar, .bar 0, .bar 1, .table 0]
  tables := fun _ => 7
  gBar := by decide
  bars := by
    intro nd active
    have cases : nd = 0 ∨ nd = 1 := by omega
    rcases cases with rfl | rfl <;> decide

/-- Two nodes that both come to their loops. -/
theorem no_server_before_all_two : ∃ σ, Sys.Run twoNodes (fun _ => 5) σ ∧ σ.pc 1 = .loop ∧
    (∀ k < twoNodes.ntot, (σ.pc k).arrived) ∧ ∀ i, .table i ∈ twoNodes.lines → (σ.line (.table i)).view 1 = twoNodes.tables i := by
  let acts : List Act := .prefetch 1 (.table 0) :: (List.replicate 19 (.go 0) ++ List.replicate 9 (.go 1) ++ List.replicate 5 (.go 0) ++
    List.replicate 2 (.go 1))
  have enters : (acts.foldlM (Sys.step twoNodes) (.init fun _ => 5)).map (fun σ => σ.pc 1) = some .loop := by decide
  obtain ⟨σ, run, loop⟩ := Option.map_eq_some_iff.mp enters
  have reached := Sys.Run.of_acts _ .init run
  exact ⟨σ, reached, loop, no_server_before_all twoNodes (fun _ => 5) (by decide) σ reached 1 loop⟩

end BiProject.Startup
