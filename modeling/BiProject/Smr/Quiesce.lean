import BiProject.Constant
import Mathlib.Data.List.Basic

/-!
# Section records and the quiescence bound

`bi_enter`, `bi_exit` and `bi_quiesce` of `libs/bi/bi_smr.c`. A core announces a section by
writing the clock to its record; the record says "inside" as long as `time_out` does not exceed
`time_in`. `bi_quiesce` takes the minimum of the given time and of the `time_in` of every record
that says "inside", over all active nodes and cores, and subtracts the grace period. All three
subtract or add in `uint64_t`.
-/

namespace BiProject.Smr
set_option autoImplicit false

/-- `struct parsec`. -/
structure Parsec where
  timeIn : Nat
  timeOut : Nat
deriving DecidableEq, Repr

def parsecStructInit : Parsec := ⟨0, 1⟩

/-- `__ps_in_lib`. -/
def psInLib (ps : Parsec) : Bool := ps.timeOut ≤ ps.timeIn

/-- The record `bi_enter` leaves, `currTime` being what the clock read. -/
def biEnter (currTime : Nat) : Parsec := ⟨currTime, (currTime + u64 - 1) % u64⟩

def biExit (ps : Parsec) : Parsec := { ps with timeOut := (ps.timeIn + 1) % u64 }

/-- One record of the scan of `bi_quiesce_smr`. -/
def scanCore (times : Nat → Parsec) (minKnownQsc j : Nat) : Nat :=
  if psInLib (times j) then
    if minKnownQsc > (times j).timeIn then (times j).timeIn else minKnownQsc
  else minKnownQsc

/-- The scan starts at the node's own records and goes round (`qsc_cpu = (curr + i) % tot_cpu`). -/
def biQuiesceSmr (curr totCpu totCore : Nat) (times : Nat → Nat → Parsec) (time : Nat) : Nat :=
  (List.range totCpu).foldl
    (fun acc i => (List.range totCore).foldl (scanCore (times ((curr + i) % totCpu))) acc) time

def biQuiesceCache (time : Nat) : Nat := (time + u64 - flushGracePeriod) % u64

def biQuiesce (curr totCpu totCore : Nat) (times : Nat → Nat → Parsec) (time : Nat) : Nat :=
  biQuiesceCache (biQuiesceSmr curr totCpu totCore times time)

/-- The record of a core that has just entered says "inside". -/
theorem psInLib_biEnter {currTime : Nat} (positive : 0 < currTime) (bound : currTime < u64) :
    psInLib (biEnter currTime) = true := by
  apply decide_eq_true
  simp only [biEnter, u64] at *
  omega

/-- A core does not raise the bound, -/
theorem scanCore_le_acc (times : Nat → Parsec) (acc j : Nat) : scanCore times acc j ≤ acc := by
  unfold scanCore
  split_ifs <;> omega

/-- and one that is inside brings it down to its `time_in`, -/
theorem scanCore_le (times : Nat → Parsec) (acc j : Nat) (inside : psInLib (times j) = true) :
    scanCore times acc j ≤ (times j).timeIn := by
  unfold scanCore
  rw [if_pos inside]
  split_ifs <;> omega

/-- but not below that. -/
theorem le_scanCore {times : Nat → Parsec} {acc j low : Nat} (below : low ≤ acc)
    (inside : psInLib (times j) = true → low ≤ (times j).timeIn) : low ≤ scanCore times acc j := by
  unfold scanCore
  split_ifs with h
  · exact inside h
  · exact below
  · exact below

/-- A fold that never raises its accumulator ends at or below where it started. -/
theorem foldl_le_of_step {f : Nat → Nat → Nat} (lowers : ∀ acc x, f acc x ≤ acc) :
    ∀ (xs : List Nat) (acc : Nat), xs.foldl f acc ≤ acc := by
  intro xs
  induction xs with
  | nil => intro acc; exact Nat.le_refl _
  | cons x xs ih => intro acc; exact Nat.le_trans (ih _) (lowers acc x)

/-- It also ends at or below whatever one of its elements lowers any accumulator to. -/
theorem foldl_le_of_mem {f : Nat → Nat → Nat} (lowers : ∀ acc x, f acc x ≤ acc) {xs : List Nat}
    {x bound : Nat} (member : x ∈ xs) (here : ∀ acc, f acc x ≤ bound) (acc : Nat) :
    xs.foldl f acc ≤ bound := by
  induction xs generalizing acc with
  | nil => cases member
  | cons y ys ih =>
    rcases List.mem_cons.mp member with same | later
    · subst same
      exact Nat.le_trans (foldl_le_of_step lowers ys _) (here acc)
    · exact ih later _

/-- What no step goes below, the fold does not go below. -/
theorem le_foldl_of_step {f : Nat → Nat → Nat} {low : Nat} {xs : List Nat}
    (keeps : ∀ x ∈ xs, ∀ acc, low ≤ acc → low ≤ f acc x) :
    ∀ acc, low ≤ acc → low ≤ xs.foldl f acc := by
  induction xs with
  | nil => intro acc below; exact below
  | cons x xs ih =>
    intro acc below
    exact ih (fun y member => keeps y (List.mem_cons_of_mem _ member)) _
      (keeps x List.mem_cons_self acc below)

/-- The scan goes over every active node. -/
theorem scan_covers (curr : Nat) {totCpu m : Nat} (active : m < totCpu) :
    ∃ i ∈ List.range totCpu, (curr + i) % totCpu = m := by
  refine ⟨(m + totCpu - curr % totCpu) % totCpu, List.mem_range.mpr (Nat.mod_lt _ (by omega)), ?_⟩
  have start : curr % totCpu < totCpu := Nat.mod_lt _ (by omega)
  rw [Nat.add_mod, Nat.mod_mod, ← Nat.add_mod, ← Nat.mod_add_mod,
    show curr % totCpu + (m + totCpu - curr % totCpu) = m + totCpu by omega, Nat.add_mod_right,
    Nat.mod_eq_of_lt active]

/-- The bound is not above the time. -/
theorem biQuiesceSmr_le_time (curr totCpu totCore : Nat) (times : Nat → Nat → Parsec) (time : Nat) :
    biQuiesceSmr curr totCpu totCore times time ≤ time :=
  foldl_le_of_step (fun _ _ => foldl_le_of_step (scanCore_le_acc _) _ _) _ _

/-- **The bound is below every announced section.** -/
theorem biQuiesceSmr_le_timeIn (curr : Nat) {totCpu totCore m c : Nat} (times : Nat → Nat → Parsec)
    (time : Nat) (node : m < totCpu) (core : c < totCore) (inside : psInLib (times m c) = true) :
    biQuiesceSmr curr totCpu totCore times time ≤ (times m c).timeIn := by
  obtain ⟨i, member, here⟩ := scan_covers curr node
  refine foldl_le_of_mem (fun _ _ => foldl_le_of_step (scanCore_le_acc _) _ _) member (fun acc => ?_) _
  rw [here]
  exact foldl_le_of_mem (scanCore_le_acc _) (List.mem_range.mpr core)
    (fun acc => scanCore_le _ acc c inside) acc

/-- It is not below what the time and every section inside are not below. -/
theorem le_biQuiesceSmr {curr totCpu totCore time low : Nat} {times : Nat → Nat → Parsec}
    (below : low ≤ time)
    (sections : ∀ m < totCpu, ∀ c < totCore, psInLib (times m c) = true → low ≤ (times m c).timeIn) :
    low ≤ biQuiesceSmr curr totCpu totCore times time := by
  apply le_foldl_of_step _ _ below
  intro i member acc accBelow
  have node : (curr + i) % totCpu < totCpu := Nat.mod_lt _ (by have := List.mem_range.mp member; omega)
  apply le_foldl_of_step _ _ accBelow
  intro j jmem acc' below'
  exact le_scanCore below' (sections _ node j (List.mem_range.mp jmem))

/-- The grace period is subtracted without wrapping from any time that has passed it. -/
theorem biQuiesceCache_eq {time : Nat} (late : flushGracePeriod ≤ time) (bound : time < u64) :
    biQuiesceCache time = time - flushGracePeriod := by
  unfold biQuiesceCache u64 at *
  omega

end BiProject.Smr
