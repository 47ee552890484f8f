import BiProject.Startup.Barrier

/-!
# What the lines have while the nodes start

What a line may have follows from where the nodes are. Until the master opens `g_bar`, no one sees 1 in it and the other nodes
have done nothing; from then on a line has what `init_global_memory` put there until the one node that raises it has
stored to it.
-/

namespace BiProject.Startup
set_option autoImplicit false
open BiProject.Lib

/-! ## Where the nodes are -/

/-- The master has stored 1 to `g_bar`. -/
@[simp] def Pc.opened : Pc → Prop
  | .store0 | .wb0 | .memset _ | .fill _ | .wbAll _ | .store1 => False
  | _ => True

/-- A node has stored 1 to its entry of `bars`. -/
@[simp] def Pc.arrived : Pc → Prop
  | .bar0Wb | .barWb | .bar0Flush | .bar0Load | .loop => True
  | _ => False

/-- A node is about to write its entry back, or it has done so. -/
@[simp] def Pc.raising : Pc → Prop
  | .bar0Wb | .barWb => True
  | _ => False

/-- It has done so. -/
@[simp] def Pc.raised : Pc → Prop
  | .bar0Flush | .bar0Load | .loop => True
  | _ => False

/-- The master has stored what `init_global_memory` puts in a line, or has written it back as well. -/
@[simp] def Pc.heldAt (l : LineId) : Pc → Prop
  | .fill rest => l ∉ rest
  | .wbAll _ => True
  | _ => False

/-- It has written the line back. -/
@[simp] def Pc.settledAt (l : LineId) : Pc → Prop
  | .store0 | .wb0 | .memset _ | .fill _ => False
  | .wbAll rest => l ∉ rest
  | _ => True

/-- Another node has flushed a line since `g_bar` was open. -/
@[simp] def Pc.seenAt (l : LineId) : Pc → Prop
  | .gFlush | .gLoad => False
  | .flushAll rest => l ∉ rest
  | _ => True

/-- How many entries the master has seen raised, its own not needed. -/
@[simp] def Pc.count (ntot : Nat) : Pc → Nat
  | .waitFlush nd | .waitLoad nd => nd
  | .bar0Store | .bar0Wb | .loop => ntot
  | _ => 0

/-- The steps of the master, -/
@[simp] def Pc.IsMaster : Pc → Prop
  | .gFlush | .gLoad | .flushAll _ | .barStore | .barWb | .bar0Flush | .bar0Load => False
  | _ => True

/-- and of the other nodes. -/
@[simp] def Pc.IsSlave : Pc → Prop
  | .gFlush | .gLoad | .flushAll _ | .barStore | .barWb | .bar0Flush | .bar0Load | .loop => True
  | _ => False

/-- A line still has what `init_global_memory` put there. -/
def Quiet (pc : Nat → Pc) : LineId → Prop
  | .gBar => False
  | .bar nd => ¬ (pc nd).arrived
  | .table _ => True

/-- The owner of a line is raising it, -/
def Raising (pc : Nat → Pc) : LineId → Prop
  | .gBar => pc 0 = .wb1
  | .bar nd => (pc nd).raising
  | .table _ => False

/-- or has raised it. -/
def Raised (pc : Nat → Pc) : LineId → Prop
  | .gBar => (pc 0).opened ∧ pc 0 ≠ .wb1
  | .bar nd => (pc nd).raised
  | .table _ => False

/-- The node that raises a line. -/
def LineId.owner : LineId → Nat
  | .gBar => 0
  | .bar nd => nd
  | .table _ => 0

/-! ## What a line may have -/

/-- **What a line may have**, by where the nodes are. -/
structure LineOk (C : Config) (pc : Nat → Pc) (l : LineId) (L : Line Nat Nat) : Prop where
  clean : ∀ n ≠ 0, (l = .bar n → ¬ (pc n).arrived) → L.Clean n
  masterClean : (pc 0).opened → l ≠ .gBar → l ≠ .bar 0 → L.Clean 0
  shut : l = .gBar → ¬ (pc 0).opened → L.Only (· ≠ 1)
  held : (pc 0).heldAt l → L.Holds 0 (C.content l)
  settled : (pc 0).settledAt l → Quiet pc l → L.Settled 0 (C.content l)
  fresh : ∀ n ≠ 0, (pc n).seenAt l → Quiet pc l → L.Fresh n (C.content l)
  raising : Raising pc l → L.Holds l.owner 1
  raised : Raised pc l → L.mem = 1 ∧ ∀ n, L.Clean n

/-- What is known of where the nodes are. -/
structure PcOk (C : Config) (pc : Nat → Pc) : Prop where
  master : (pc 0).IsMaster
  slave : ∀ n ≠ 0, (pc n).IsSlave
  early : ¬ (pc 0).opened → ∀ n ≠ 0, pc n = .gFlush ∨ pc n = .gLoad
  counted : ∀ k ≠ 0, k < (pc 0).count C.ntot → (pc k).arrived
  entered : ∀ n ≠ 0, pc n = .loop → (pc 0).arrived
  bound : ∀ nd, pc 0 = .waitLoad nd → nd < C.ntot
  started : ∀ nd, pc 0 = .waitFlush nd ∨ pc 0 = .waitLoad nd → nd ≠ 0

/-- **The invariant**: every line has what it may have. -/
structure Inv (C : Config) (σ : Sys) : Prop where
  pcs : PcOk C σ.pc
  lines : ∀ l ∈ C.lines, LineOk C σ.pc l (σ.line l)

section
variable {C : Config} {pc pc' : Nat → Pc} {l : LineId} {L : Line Nat Nat}

/-- As nodes go on, a line only has to answer for what is new. -/
theorem LineOk.weaken (ok : LineOk C pc l L) (arrived : ∀ n, (pc n).arrived → (pc' n).arrived)
    (opened : (pc 0).opened → (pc' 0).opened) (masterClean : (pc' 0).opened → (pc 0).opened ∨ L.Clean 0)
    (held : (pc' 0).heldAt l → (pc 0).heldAt l ∨ L.Holds 0 (C.content l))
    (settled : (pc' 0).settledAt l → (pc 0).settledAt l ∨ L.Settled 0 (C.content l))
    (fresh : ∀ n ≠ 0, (pc' n).seenAt l → (pc n).seenAt l ∨ L.Fresh n (C.content l))
    (raising : Raising pc' l → Raising pc l ∨ L.Holds l.owner 1)
    (raised : Raised pc' l → Raised pc l ∨ L.mem = 1 ∧ ∀ n, L.Clean n) : LineOk C pc' l L := by
  have quiet : Quiet pc' l → Quiet pc l := by
    cases l with
    | gBar => exact id
    | bar nd => exact fun down here => down (arrived nd here)
    | table i => exact id
  constructor
  · intro n other down
    exact ok.clean n other fun here there => down here (arrived n there)
  · intro opened' notG not0
    exact (masterClean opened').elim (fun before => ok.masterClean before notG not0) id
  · intro gBar shut
    exact ok.shut gBar fun before => shut (opened before)
  · intro here
    exact (held here).elim ok.held id
  · intro here down
    exact (settled here).elim (fun before => ok.settled before (quiet down)) id
  · intro n other here down
    exact (fresh n other here).elim (fun before => ok.fresh n other before (quiet down)) id
  · intro here
    exact (raising here).elim ok.raising id
  · intro here
    exact (raised here).elim ok.raised id

/-- While the master fills the mapping, the others have nothing to write back. -/
theorem LineOk.clean_of_shut (ok : LineOk C pc l L) (pcs : PcOk C pc) (shut : ¬ (pc 0).opened) {m : Nat} (other : m ≠ 0) : L.Clean m := by
  apply ok.clean m other
  intro _ arrived
  rcases pcs.early shut m other with here | here <;> rw [here] at arrived <;> exact arrived

/-- The master stores to the tables before it opens `g_bar`, -/
theorem not_opened_of_heldAt {p : Pc} (held : p.heldAt l) : ¬ p.opened := by
  cases p <;> simp_all [Pc.heldAt, Pc.opened]

/-- the others flush them afterwards, -/
theorem opened_of_seenAt (pcs : PcOk C pc) {n : Nat} (other : n ≠ 0) (seen : (pc n).seenAt l) : (pc 0).opened := by
  by_contra shut
  rcases pcs.early shut n other with here | here <;> rw [here] at seen <;> exact seen

/-- and then all are written back. -/
theorem settledAt_of_opened {p : Pc} (opened : p.opened) : p.settledAt l := by
  cases p <;> simp_all [Pc.settledAt, Pc.opened]

/-- Of a line that is as it was filled, no node has anything to write back. -/
theorem LineOk.clean_of_settled (ok : LineOk C pc l L) (here : (pc 0).settledAt l) (quiet : Quiet pc l) (m : Nat) : L.Clean m := by
  by_cases master : m = 0
  · subst master
    exact (ok.settled here quiet).2.clean
  · apply ok.clean m master
    rintro rfl
    exact quiet

/-- A node other than the owner has nothing to write back while the owner raises the line. -/
theorem LineOk.clean_of_raising (ok : LineOk C pc l L) (pcs : PcOk C pc) (raising : Raising pc l) {m : Nat} (other : m ≠ l.owner) : L.Clean m := by
  cases l with
  | gBar => exact ok.clean m other fun here => by cases here
  | bar nd =>
    have differ : LineId.bar nd ≠ .bar m := fun same => other (LineId.bar.inj same).symm
    by_cases master : m = 0
    · subst master
      apply ok.masterClean ?_ (by simp) differ
      by_contra shut
      rcases pcs.early shut nd (Ne.symm other) with here | here <;> simp only [Raising, here] at raising <;> exact raising
    · exact ok.clean m master fun same => absurd same differ
  | table i => exact absurd raising id

/-! ## The hardware -/

/-- A load of any node, -/
theorem LineOk.load (ok : LineOk C pc l L) (pcs : PcOk C pc) (m : Nat) : LineOk C pc l (L.load m) := by
  constructor
  · intro n other down
    exact (ok.clean n other down).load m
  · intro opened notG not0
    exact (ok.masterClean opened notG not0).load m
  · intro gBar shut
    exact (ok.shut gBar shut).load m
  · intro here
    exact (ok.held here).load m
  · intro here quiet
    exact (ok.settled here quiet).load m
  · intro n other seen quiet
    have mem := (ok.settled (settledAt_of_opened (opened_of_seenAt pcs other seen)) quiet).1
    exact (ok.fresh n other seen quiet).load mem m
  · intro raising
    exact (ok.raising raising).load m
  · intro raised
    obtain ⟨mem, clean⟩ := ok.raised raised
    exact ⟨(Line.load_mem L m).trans mem, fun n => (clean n).load m⟩

/-- a write-back on the hardware's own -/
theorem LineOk.writeBack (ok : LineOk C pc l L) (pcs : PcOk C pc) (m : Nat) : LineOk C pc l (L.writeBack m) := by
  constructor
  · intro n other down
    exact (ok.clean n other down).writeBack m
  · intro opened notG not0
    exact (ok.masterClean opened notG not0).writeBack m
  · intro gBar shut
    exact (ok.shut gBar shut).writeBack m
  · intro here
    exact (ok.held here).writeBack fun other => ok.clean_of_shut pcs (not_opened_of_heldAt here) other
  · intro here quiet
    exact (ok.settled here quiet).writeBack (ok.clean_of_settled here quiet m)
  · intro n other seen quiet
    rw [Line.writeBack_clean (ok.clean_of_settled (settledAt_of_opened (opened_of_seenAt pcs other seen)) quiet m)]
    exact ok.fresh n other seen quiet
  · intro raising
    exact (ok.raising raising).writeBack fun other => ok.clean_of_raising pcs raising other
  · intro raised
    rw [Line.writeBack_clean ((ok.raised raised).2 m)]
    exact ok.raised raised

/-- and a line that is dropped leave the line right. -/
theorem LineOk.clflush (ok : LineOk C pc l L) (pcs : PcOk C pc) (m : Nat) : LineOk C pc l (L.clflush m) := by
  constructor
  · intro n other down
    exact (ok.clean n other down).clflush m
  · intro opened notG not0
    exact (ok.masterClean opened notG not0).clflush m
  · intro gBar shut
    exact (ok.shut gBar shut).clflush m
  · intro here
    exact (ok.held here).clflush fun other => ok.clean_of_shut pcs (not_opened_of_heldAt here) other
  · intro here quiet
    exact (ok.settled here quiet).clflush (ok.clean_of_settled here quiet m)
  · intro n other seen quiet
    exact (ok.fresh n other seen quiet).clflush m
  · intro raising
    exact (ok.raising raising).clflush fun other => ok.clean_of_raising pcs raising other
  · intro raised
    obtain ⟨mem, clean⟩ := ok.raised raised
    exact ⟨(Line.clflush_clean (clean m)).trans mem, fun n => (clean n).clflush m⟩

/-! ## A line is raised -/

/-- The owner has stored 1 to a line, and no other node has anything to write back to it. -/
theorem lineOk_raising (opened : (pc 0).opened) (loud : ¬ Quiet pc l) (here : ¬ Raised pc l) (holds : L.Holds l.owner 1)
    (others : ∀ m, m ≠ l.owner → L.Clean m) : LineOk C pc l L := by
  constructor
  · intro m notMaster down
    apply others
    rintro rfl
    cases l with
    | gBar => exact notMaster rfl
    | bar nd => exact loud (down rfl)
    | table i => exact loud trivial
  · intro _ notG not0
    apply others
    cases l with
    | gBar => exact absurd rfl notG
    | bar nd => exact fun same => not0 (congrArg LineId.bar same.symm)
    | table i => exact absurd trivial loud
  · intro _ shut
    exact absurd opened shut
  · intro held
    exact absurd opened (not_opened_of_heldAt held)
  · intro _ quiet
    exact absurd quiet loud
  · intro _ _ _ quiet
    exact absurd quiet loud
  · intro _
    exact holds
  · intro raised
    exact absurd raised here

/-- A line has been written back and stays so. -/
theorem lineOk_raised (opened : (pc 0).opened) (loud : ¬ Quiet pc l) (done : ¬ Raising pc l) (mem : L.mem = 1) (clean : ∀ m, L.Clean m) :
    LineOk C pc l L := by
  constructor
  · intro m _ _
    exact clean m
  · intro _ _ _
    exact clean 0
  · intro _ shut
    exact absurd opened shut
  · intro held
    exact absurd opened (not_opened_of_heldAt held)
  · intro _ quiet
    exact absurd quiet loud
  · intro _ _ _ quiet
    exact absurd quiet loud
  · intro raising
    exact absurd raising done
  · intro _
    exact ⟨mem, clean⟩

/-- Who stores 1 holds it, -/
theorem store_holds (L : Line Nat Nat) (n : Nat) (others : ∀ m, m ≠ n → L.Clean m) :
    (L.store n fun _ => 1).Holds n 1 ∧ ∀ m, m ≠ n → (L.store n fun _ => 1).Clean m := by
  refine ⟨Line.Holds.store L n 1, fun m other v here => ?_⟩
  rw [Line.store_other L _ other] at here
  exact others m other v here

/-- and a write-back settles it. -/
theorem clwb_settles {n : Nat} (holds : L.Holds n 1) (others : ∀ m, m ≠ n → L.Clean m) : (L.clwb n).mem = 1 ∧ ∀ m, (L.clwb n).Clean m := by
  refine ⟨holds.clwb.1, fun m v here => ?_⟩
  by_cases same : m = n
  · subst same
    exact holds.clwb.2.clean v here
  · rw [Line.clwb_other L same] at here
    exact others m same v here

/-! ## A node goes on -/

section
variable {n : Nat} {p : Pc}

/-- Another node goes on, and the line is as it was. -/
theorem LineOk.slave (ok : LineOk C pc l L) (other : n ≠ 0) (arrived : (pc n).arrived → p.arrived)
    (seen : p.seenAt l → (pc n).seenAt l ∨ L.Fresh n (C.content l)) (raising : l = .bar n → p.raising → (pc n).raising ∨ L.Holds n 1)
    (raised : l = .bar n → p.raised → (pc n).raised ∨ L.mem = 1 ∧ ∀ m, L.Clean m) : LineOk C (Function.update pc n p) l L := by
  have master : Function.update pc n p 0 = pc 0 := Function.update_of_ne (Ne.symm other) ..
  apply ok.weaken
  · intro m here
    by_cases same : m = n
    · subst same
      rw [Function.update_self]
      exact arrived here
    · rw [Function.update_of_ne same]
      exact here
  · rw [master]
    exact id
  · rw [master]
    exact Or.inl
  · rw [master]
    exact Or.inl
  · rw [master]
    exact Or.inl
  · intro m notMaster here
    by_cases same : m = n
    · subst same
      rw [Function.update_self] at here
      exact seen here
    · rw [Function.update_of_ne same] at here
      exact Or.inl here
  · intro here
    cases l with
    | gBar => exact Or.inl (by simpa only [Raising, master] using here)
    | bar nd =>
      by_cases same : nd = n
      · subst same
        rw [Raising, Function.update_self] at here
        exact raising rfl here
      · rw [Raising, Function.update_of_ne same] at here
        exact Or.inl here
    | table i => exact absurd here id
  · intro here
    cases l with
    | gBar => exact Or.inl (by simpa only [Raised, master] using here)
    | bar nd =>
      by_cases same : nd = n
      · subst same
        rw [Raised, Function.update_self] at here
        exact raised rfl here
      · rw [Raised, Function.update_of_ne same] at here
        exact Or.inl here
    | table i => exact absurd here id

/-- The master goes on, and the line is as it was. -/
theorem LineOk.master (ok : LineOk C pc l L) (arrived : (pc 0).arrived → p.arrived) (opened : (pc 0).opened → p.opened)
    (masterClean : p.opened → (pc 0).opened ∨ L.Clean 0) (held : p.heldAt l → (pc 0).heldAt l ∨ L.Holds 0 (C.content l))
    (settled : p.settledAt l → (pc 0).settledAt l ∨ L.Settled 0 (C.content l))
    (raising : Raising (Function.update pc 0 p) l → Raising pc l ∨ L.Holds l.owner 1)
    (raised : Raised (Function.update pc 0 p) l → Raised pc l ∨ L.mem = 1 ∧ ∀ m, L.Clean m) :
    LineOk C (Function.update pc 0 p) l L := by
  have self : Function.update pc 0 p 0 = p := Function.update_self ..
  apply ok.weaken
  · intro m here
    by_cases same : m = 0
    · subst same
      rw [self]
      exact arrived here
    · rw [Function.update_of_ne same]
      exact here
  · rw [self]
    exact opened
  · rw [self]
    exact masterClean
  · rw [self]
    exact held
  · rw [self]
    exact settled
  · intro m notMaster here
    rw [Function.update_of_ne notMaster] at here
    exact Or.inl here
  · exact raising
  · exact raised

/-- Another node is at one of its own steps again, -/
theorem PcOk.slaveStep (pcs : PcOk C pc) (other : n ≠ 0) (opened : (pc 0).opened ∨ p = .gFlush ∨ p = .gLoad) (role : p.IsSlave)
    (arrived : (pc n).arrived → p.arrived) (entered : p = .loop → (pc 0).arrived) : PcOk C (Function.update pc n p) := by
  have master : Function.update pc n p 0 = pc 0 := Function.update_of_ne (Ne.symm other) ..
  constructor
  · rw [master]
    exact pcs.master
  · intro m notMaster
    by_cases same : m = n
    · subst same
      rw [Function.update_self]
      exact role
    · rw [Function.update_of_ne same]
      exact pcs.slave m notMaster
  · intro shut m notMaster
    rw [master] at shut
    by_cases same : m = n
    · subst same
      rw [Function.update_self]
      exact opened.resolve_left shut
    · rw [Function.update_of_ne same]
      exact pcs.early shut m notMaster
  · intro k notMaster seen
    rw [master] at seen
    by_cases same : k = n
    · subst same
      rw [Function.update_self]
      exact arrived (pcs.counted k notMaster seen)
    · rw [Function.update_of_ne same]
      exact pcs.counted k notMaster seen
  · intro m notMaster here
    rw [master]
    by_cases same : m = n
    · subst same
      rw [Function.update_self] at here
      exact entered here
    · rw [Function.update_of_ne same] at here
      exact pcs.entered m notMaster here
  · rw [master]
    exact pcs.bound
  · rw [master]
    exact pcs.started

/-- and so is the master. -/
theorem PcOk.masterStep (pcs : PcOk C pc) (role : p.IsMaster) (opened : (pc 0).opened → p.opened)
    (arrived : (pc 0).arrived → p.arrived) (bound : ∀ nd, p = .waitLoad nd → nd < C.ntot)
    (started : ∀ nd, p = .waitFlush nd ∨ p = .waitLoad nd → nd ≠ 0)
    (counted : ∀ k ≠ 0, k < p.count C.ntot → (pc k).arrived) : PcOk C (Function.update pc 0 p) := by
  have self : Function.update pc 0 p 0 = p := Function.update_self ..
  constructor
  · rw [self]
    exact role
  · intro m notMaster
    rw [Function.update_of_ne notMaster]
    exact pcs.slave m notMaster
  · intro shut m notMaster
    rw [self] at shut
    rw [Function.update_of_ne notMaster]
    exact pcs.early (fun before => shut (opened before)) m notMaster
  · intro k notMaster seen
    rw [self] at seen
    rw [Function.update_of_ne notMaster]
    exact counted k notMaster seen
  · intro m notMaster here
    rw [Function.update_of_ne notMaster] at here
    rw [self]
    exact arrived (pcs.entered m notMaster here)
  · rw [self]
    exact bound
  · rw [self]
    exact started

end

end

end BiProject.Startup
