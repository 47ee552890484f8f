import BiProject.Smr.System

/-!
# The quiescence bound at any clock

The runs of `bi_enter`, `bi_exit` and `bi_time_flush` from a clock that starts at 0. Two subtractions can wrap
while the clock is young: `time_out = curr_time - 1`, after which a section entered at 0 does not say "inside",
and the grace period that `bi_quiesce_cache` takes off. Past both, the bound is below what it should be.
-/

namespace BiProject.Smr
set_option autoImplicit false

/-- The section records of every core, in the node's cache and published, which cores are inside a section, which
were when their node last published, and what the clock has reached. -/
structure Sections where
  parsecTimeCache : Nat → Nat → Parsec
  parsecTimes : Nat → Nat → Parsec
  inside : Nat → Nat → Bool
  announced : Nat → Nat → Bool
  clock : Nat

/-- One call on node `n`, at a clock reading not before the last one. -/
inductive SectionStep (σ : Sections) : Sections → Prop where
  | enter {n c currTime : Nat} (later : σ.clock ≤ currTime) (width : currTime < u64) :
      SectionStep σ { σ with
        parsecTimeCache := upd σ.parsecTimeCache n c (biEnter currTime)
        inside := upd σ.inside n c true, clock := currTime }
  | exit {n c : Nat} :
      SectionStep σ { σ with
        parsecTimeCache := upd σ.parsecTimeCache n c (biExit (σ.parsecTimeCache n c))
        inside := upd σ.inside n c false }
  | timeFlush {n : Nat} :
      SectionStep σ { σ with
        parsecTimes := Function.update σ.parsecTimes n (σ.parsecTimeCache n)
        announced := Function.update σ.announced n (σ.inside n) }

def Sections.start : Sections :=
  ⟨fun _ _ => parsecStructInit, fun _ _ => parsecStructInit, fun _ _ => false, fun _ _ => false, 0⟩

/-- Runs from what `init_global_memory` leaves. -/
inductive SectionRun : Sections → Prop where
  | init : SectionRun Sections.start
  | step {σ σ' : Sections} (before : SectionRun σ) (next : SectionStep σ σ') : SectionRun σ'

/-! ## What a record says -/

/-- A record as `bi_enter` leaves it, or `bi_exit`. -/
structure Told (r : Parsec) (inside : Bool) : Prop where
  width : r.timeIn < u64
  timeOut : r.timeOut = if inside then (r.timeIn + u64 - 1) % u64 else (r.timeIn + 1) % u64

theorem Told.enter {currTime : Nat} (width : currTime < u64) : Told (biEnter currTime) true := by
  refine ⟨width, ?_⟩
  simp only [biEnter, if_true]

theorem Told.exit {r : Parsec} {inside : Bool} (told : Told r inside) : Told (biExit r) false := ⟨told.width, rfl⟩

/-- A section that was entered at 0 is missed, -/
theorem Told.inLib_iff {r : Parsec} (told : Told r true) : psInLib r = true ↔ r.timeIn ≠ 0 := by
  have width := told.width
  have timeOut := told.timeOut
  simp only [if_true] at timeOut
  rw [psInLib, decide_eq_true_eq]
  unfold u64 at *
  omega

/-- and a section that was left counts only if its clock was at the end of `uint64_t`. -/
theorem Told.left {r : Parsec} (told : Told r false) (inLib : psInLib r = true) : r.timeIn = u64 - 1 := by
  have width := told.width
  have timeOut := told.timeOut
  rw [psInLib, decide_eq_true_eq] at inLib
  simp only [Bool.false_eq_true, if_false] at timeOut
  unfold u64 at *
  omega

/-- Every record, in the caches and published, is one of the two. -/
structure SectionsOk (σ : Sections) : Prop where
  cached : ∀ n c, Told (σ.parsecTimeCache n c) (σ.inside n c)
  published : ∀ n c, Told (σ.parsecTimes n c) (σ.announced n c)

theorem SectionsOk.step {σ σ' : Sections} (ok : SectionsOk σ) (next : SectionStep σ σ') : SectionsOk σ' := by
  -- a change of one record and of its mark
  have change : ∀ {r : Parsec} {b : Bool} (n c : Nat), Told r b → ∀ n' c',
      Told (upd σ.parsecTimeCache n c r n' c') (upd σ.inside n c b n' c') := by
    intro r b n c told n' c'
    by_cases here : n' = n ∧ c' = c
    · obtain ⟨rfl, rfl⟩ := here
      simpa using told
    · rw [upd_ne _ _ here, upd_ne _ _ here]
      exact ok.cached n' c'
  cases next with
  | enter later width => exact ⟨change _ _ (Told.enter width), ok.published⟩
  | exit => exact ⟨change _ _ (ok.cached _ _).exit, ok.published⟩
  | @timeFlush n =>
    refine ⟨ok.cached, fun n' c => ?_⟩
    by_cases here : n' = n
    · subst here
      simpa using ok.cached n' c
    · simpa [Function.update_of_ne here] using ok.published n' c

theorem SectionRun.ok {σ : Sections} (run : SectionRun σ) : SectionsOk σ := by
  induction run with
  | init =>
    have told : Told parsecStructInit false := ⟨by decide, by decide⟩
    exact ⟨fun _ _ => told, fun _ _ => told⟩
  | step _ next ih => exact ih.step next

/-! ## The bound -/

section
variable {σ : Sections} {curr totCpu totCore time : Nat}

/-- A core of an active node was inside a section when its node last published. -/
structure Sections.Announced (σ : Sections) (totCpu totCore n c : Nat) : Prop where
  node : n < totCpu
  core : c < totCore
  inside : σ.announced n c = true

/-- `bi_quiesce` is not too late: it passes neither the time it is given nor the beginning of a published section. -/
def Sections.NotLate (σ : Sections) (curr totCpu totCore time : Nat) : Prop :=
  biQuiesce curr totCpu totCore σ.parsecTimes time ≤ time ∧
    ∀ n c, σ.Announced totCpu totCore n c →
      biQuiesce curr totCpu totCore σ.parsecTimes time ≤ (σ.parsecTimes n c).timeIn

/-- The grace period has passed at `time` and at the beginning of the published sections. One that began at 0, and
is missed, does no harm only where the least of the others is the grace period itself. -/
structure Sections.PastGrace (σ : Sections) (totCpu totCore time : Nat) : Prop where
  argument : flushGracePeriod ≤ time
  sections : ∀ n c, σ.Announced totCpu totCore n c → (σ.parsecTimes n c).timeIn ≠ 0 →
    flushGracePeriod ≤ (σ.parsecTimes n c).timeIn
  missed : (∃ n c, σ.Announced totCpu totCore n c ∧ (σ.parsecTimes n c).timeIn = 0) →
    time = flushGracePeriod ∨ ∃ n c, σ.Announced totCpu totCore n c ∧ (σ.parsecTimes n c).timeIn = flushGracePeriod

/-- The scan takes in every section that did not begin at 0. -/
theorem SectionsOk.scan_le (ok : SectionsOk σ) (curr time : Nat) {n c : Nat} (announced : σ.Announced totCpu totCore n c)
    (late : (σ.parsecTimes n c).timeIn ≠ 0) :
    biQuiesceSmr curr totCpu totCore σ.parsecTimes time ≤ (σ.parsecTimes n c).timeIn := by
  have told := ok.published n c
  rw [announced.inside] at told
  exact biQuiesceSmr_le_timeIn curr σ.parsecTimes time announced.node announced.core (told.inLib_iff.mpr late)

/-- What the scan ends with is the time, the beginning of a section, or the end of the clock. -/
theorem SectionsOk.scan_attained (ok : SectionsOk σ) (curr totCpu totCore time : Nat) :
    biQuiesceSmr curr totCpu totCore σ.parsecTimes time = time ∨
    (∃ n c, σ.Announced totCpu totCore n c ∧
      biQuiesceSmr curr totCpu totCore σ.parsecTimes time = (σ.parsecTimes n c).timeIn) ∨
    biQuiesceSmr curr totCpu totCore σ.parsecTimes time = u64 - 1 := by
  by_contra none
  rw [not_or, not_or] at none
  obtain ⟨notTime, notSection, notEnd⟩ := none
  have most := biQuiesceSmr_le_time curr totCpu totCore σ.parsecTimes time
  have above := @le_biQuiesceSmr curr totCpu totCore time
    (biQuiesceSmr curr totCpu totCore σ.parsecTimes time + 1) σ.parsecTimes (by omega) ?_
  · omega
  · intro n node c core inLib
    have below := biQuiesceSmr_le_timeIn curr σ.parsecTimes time node core inLib
    refine Nat.lt_of_le_of_ne below fun same => ?_
    cases mark : σ.announced n c with
    | true => exact notSection ⟨n, c, ⟨node, core, mark⟩, same⟩
    | false =>
      have told := ok.published n c
      rw [mark] at told
      exact notEnd (same.trans (told.left inLib))

/-- Before the grace period has passed, taking it off wraps past everything. -/
theorem biQuiesceCache_wraps {qsc : Nat} (early : qsc < flushGracePeriod) : qsc < biQuiesceCache qsc := by
  unfold biQuiesceCache flushGracePeriod quiseFlushPeriod u64 at *
  omega

/-- The scan has passed the grace period if all it takes in has. -/
theorem SectionsOk.scan_past (ok : SectionsOk σ) (curr : Nat) (past : σ.PastGrace totCpu totCore time) :
    flushGracePeriod ≤ biQuiesceSmr curr totCpu totCore σ.parsecTimes time := by
  refine le_biQuiesceSmr past.argument fun n node c core inLib => ?_
  have told := ok.published n c
  cases mark : σ.announced n c with
  | true =>
    rw [mark] at told
    exact past.sections n c ⟨node, core, mark⟩ (told.inLib_iff.mp inLib)
  | false =>
    rw [mark] at told
    rw [told.left inLib]
    decide

theorem SectionsOk.notLate_of_past (ok : SectionsOk σ) (width : time < u64) (past : σ.PastGrace totCpu totCore time) :
    σ.NotLate curr totCpu totCore time := by
  have late := ok.scan_past curr past
  have most := biQuiesceSmr_le_time curr totCpu totCore σ.parsecTimes time
  have value : biQuiesce curr totCpu totCore σ.parsecTimes time = _ := biQuiesceCache_eq late (by omega)
  refine ⟨by omega, fun n c announced => ?_⟩
  by_cases zero : (σ.parsecTimes n c).timeIn = 0
  · -- the least of the others is the grace period, so the bound is 0
    have least : biQuiesceSmr curr totCpu totCore σ.parsecTimes time ≤ flushGracePeriod := by
      rcases past.missed ⟨n, c, announced, zero⟩ with equal | ⟨m, d, other, equal⟩
      · omega
      · rw [← equal]
        exact ok.scan_le curr time other (by rw [equal]; decide)
    omega
  · have below := ok.scan_le curr time announced zero
    omega

theorem SectionsOk.past_of_notLate (ok : SectionsOk σ) (width : time < u64) (notLate : σ.NotLate curr totCpu totCore time) :
    σ.PastGrace totCpu totCore time := by
  obtain ⟨belowTime, belowSections⟩ := notLate
  have most := biQuiesceSmr_le_time curr totCpu totCore σ.parsecTimes time
  -- the scan has passed the grace period: else the wrapped bound is above what the scan ended with
  have late : flushGracePeriod ≤ biQuiesceSmr curr totCpu totCore σ.parsecTimes time := by
    by_contra early
    have wraps := biQuiesceCache_wraps (Nat.lt_of_not_le early)
    change _ < biQuiesce curr totCpu totCore σ.parsecTimes time at wraps
    rcases ok.scan_attained curr totCpu totCore time with same | ⟨n, c, announced, same⟩ | same
    · omega
    · have below := belowSections n c announced
      omega
    · rw [same] at early
      exact early (by decide)
  refine ⟨by omega, fun n c announced nonzero => Nat.le_trans late (ok.scan_le curr time announced nonzero), ?_⟩
  rintro ⟨n, c, announced, zero⟩
  have value : biQuiesce curr totCpu totCore σ.parsecTimes time = _ := biQuiesceCache_eq late (by omega)
  have below := belowSections n c announced
  have least : biQuiesceSmr curr totCpu totCore σ.parsecTimes time = flushGracePeriod := by omega
  rcases ok.scan_attained curr totCpu totCore time with same | ⟨m, d, other, same⟩ | same
  · exact Or.inl (by omega)
  · exact Or.inr ⟨m, d, other, by omega⟩
  · rw [least] at same
    exact absurd same (by decide)

/-- **The quiescence bound is never too late once the grace period has passed**, and only then. -/
theorem biQuiesce_not_late (run : SectionRun σ) (width : time < u64) :
    σ.NotLate curr totCpu totCore time ↔ σ.PastGrace totCpu totCore time :=
  ⟨run.ok.past_of_notLate width, run.ok.notLate_of_past width⟩

end

/-- A core has entered its section while the clock is at 0, and its node has published. -/
def Sections.early : Sections :=
  ⟨upd Sections.start.parsecTimeCache 0 0 (biEnter 0),
    Function.update Sections.start.parsecTimes 0 (upd Sections.start.parsecTimeCache 0 0 (biEnter 0) 0),
    upd Sections.start.inside 0 0 true, Function.update Sections.start.announced 0 (upd Sections.start.inside 0 0 true 0), 0⟩

theorem Sections.early_run : SectionRun Sections.early :=
  .step (.step .init (.enter (n := 0) (c := 0) (Nat.le_refl 0) (by decide))) (.timeFlush (n := 0))

/-- The section is missed, and before the grace period has passed the bound wraps past the time itself. -/
theorem biQuiesce_late_early :
    SectionRun Sections.early ∧ ¬ Sections.early.NotLate 0 1 1 (2 * flushGracePeriod) ∧
      SectionRun Sections.start ∧ ¬ Sections.start.NotLate 0 1 1 1 := by
  refine ⟨Sections.early_run, fun notLate => ?_, .init, fun notLate => ?_⟩
  · have below := notLate.2 0 0 ⟨Nat.zero_lt_one, Nat.zero_lt_one, rfl⟩
    exact absurd below (by decide)
  · exact absurd notLate.1 (by decide)

/-- Two nodes: a core of node 1 has entered its section a grace period after the start and its node has published;
a core of node 0 is inside since twice that time and its node has not. -/
def Sections.opened : Sections :=
  let entered := upd Sections.start.parsecTimeCache 1 0 (biEnter (2 * flushGracePeriod))
  let inside := upd Sections.start.inside 1 0 true
  ⟨upd entered 0 1 (biEnter (4 * flushGracePeriod)), Function.update Sections.start.parsecTimes 1 (entered 1),
    upd inside 0 1 true, Function.update Sections.start.announced 1 (inside 1), 4 * flushGracePeriod⟩

theorem Sections.opened_run : SectionRun Sections.opened :=
  .step (.step (.step .init (.enter (n := 1) (c := 0) (Nat.zero_le _) (by decide))) (.timeFlush (n := 1)))
    (.enter (n := 0) (c := 1) (by decide) (by decide))

theorem Sections.opened_announced {n c : Nat} (announced : Sections.opened.Announced 2 2 n c) : n = 1 ∧ c = 0 := by
  obtain ⟨node, core, inside⟩ := announced
  have two : n = 0 ∨ n = 1 := by omega
  have cores : c = 0 ∨ c = 1 := by omega
  rcases two with rfl | rfl <;> rcases cores with rfl | rfl
  · cases inside
  · cases inside
  · exact ⟨rfl, rfl⟩
  · cases inside

/-- The open section holds the bound back: it stays a grace period behind the section, not behind the time. -/
theorem biQuiesce_not_late_opened :
    Sections.opened.Announced 2 2 1 0 ∧ (Sections.opened.parsecTimes 1 0).timeIn = 2 * flushGracePeriod ∧
      biQuiesce 0 2 2 Sections.opened.parsecTimes (5 * flushGracePeriod) = flushGracePeriod ∧
      Sections.opened.NotLate 0 2 2 (5 * flushGracePeriod) := by
  refine ⟨⟨by decide, by decide, rfl⟩, rfl, by decide, ?_⟩
  apply (biQuiesce_not_late Sections.opened_run (by decide)).mpr
  constructor
  · decide
  · intro n c announced _
    obtain ⟨rfl, rfl⟩ := Sections.opened_announced announced
    decide
  · rintro ⟨n, c, announced, zero⟩
    obtain ⟨rfl, rfl⟩ := Sections.opened_announced announced
    exact absurd zero (by decide)

end BiProject.Smr
