import BiProject.Smr.System

/-!
# Reclamation safety

No object is handed back to the slab allocator while a core is inside a section it entered
before the object was freed. The reclaiming node sees only published section records, which are
as old as the owner's last `bi_time_flush`; sections and entries are stamped by clocks that lag.
If the section was published, its `time_in` bounds the stamps that may be reclaimed; if it was
not, it began less than a flush period ago and the grace period covers it.
-/

namespace BiProject.Smr
set_option autoImplicit false

/-- The true time at which core `c` of node `m` entered the section it is in, if it is in one. A core
has one record, so sections do not nest: each `bi_enter` begins one and the next `bi_exit` ends it. -/
def inSection (m c : Nat) : History → Option Nat
  | [] => none
  | e :: h =>
    match e.ev with
    | .enter n c' => if n = m ∧ c' = c then some e.time else inSection m c h
    | .exit n c' => if n = m ∧ c' = c then none else inSection m c h
    | _ => inSection m c h

/-- Every active node executes `bi_time_flush` at least once in every interval of length `period`
between `start` and `fin`. -/
def TimeFlushEvery (P : Params) (period start fin : Nat) (h : History) : Prop :=
  ∀ m < P.activeNodes, ∀ t, start ≤ t → t + period ≤ fin →
    ∃ e ∈ h, t ≤ e.time ∧ e.time ≤ t + period ∧ e.ev = .timeFlush m

/-- A section record that was never written, or was written by a clock past the grace period. -/
def Parsec.Stamped (ps : Parsec) : Prop :=
  ps = parsecStructInit ∨ flushGracePeriod ≤ ps.timeIn ∧ ps.timeIn < u64

theorem Parsec.Stamped.biExit {ps : Parsec} (h : ps.Stamped) : (biExit ps).Stamped := by
  rcases h with rfl | stamped
  · exact Or.inl (by decide)
  · exact Or.inr stamped

theorem Parsec.Stamped.inLib {ps : Parsec} (h : ps.Stamped) (inside : psInLib ps = true) :
    flushGracePeriod ≤ ps.timeIn ∧ ps.timeIn < u64 := by
  rcases h with rfl | stamped
  · exact absurd inside (by decide)
  · exact stamped

/-- What the section records of core `c` of node `m` say after history `h`. -/
structure RecordInv (h : History) (s : Runtime) (m c : Nat) : Prop where
  cache : (s.parsecTimeCache m c).Stamped
  published : (s.parsecTimes m c).Stamped
  announced : ∀ te, inSection m c h = some te →
    ∃ v, s.parsecTimeCache m c = biEnter v ∧ flushGracePeriod ≤ v ∧ v < u64 ∧ v ≤ te
  current : ∀ te, inSection m c h = some te → (∃ e ∈ h, e.ev = .timeFlush m ∧ te < e.time) →
    s.parsecTimes m c = s.parsecTimeCache m c

/-- A step that changes no record and neither enters nor leaves a section nor flushes. -/
theorem RecordInv.frame {h : History} {s s' : Runtime} {m c t : Nat} {ev : Ev} (inv : RecordInv h s m c)
    (cache : s'.parsecTimeCache m c = s.parsecTimeCache m c) (times : s'.parsecTimes m c = s.parsecTimes m c)
    (still : inSection m c (⟨t, ev⟩ :: h) = inSection m c h) (noFlush : ev ≠ .timeFlush m) :
    RecordInv (⟨t, ev⟩ :: h) s' m c := by
  refine ⟨cache ▸ inv.cache, times ▸ inv.published, fun te inside => ?_, fun te inside flushed => ?_⟩
  · rw [still] at inside
    rw [cache]
    exact inv.announced te inside
  · rw [still] at inside
    obtain ⟨e, member, flush, after⟩ := flushed
    rw [cache, times]
    rcases List.mem_cons.mp member with same | old
    · subst same; exact absurd flush noFlush
    · exact inv.current te inside ⟨e, old, flush, after⟩

/-- **One step** keeps every core's record invariant. -/
theorem RecordInv.step {P : Params} {h : History} {s s' : Runtime} {t : Nat} {ev : Ev} {view view' clk : Nat → Nat}
    (inv : ∀ m c, RecordInv h s m c) (past : ∀ e ∈ h, e.time ≤ t) (node : ev.node < P.activeNodes)
    (clock : Clock P t view view' ev.node clk) (act : Do P clk s ev s') (m c : Nat) :
    RecordInv (⟨t, ev⟩ :: h) s' m c := by
  cases act with
  | @enter n c' core =>
    by_cases here : n = m ∧ c' = c
    · obtain ⟨rfl, rfl⟩ := here
      have entered : inSection n c' (⟨t, .enter n c'⟩ :: h) = some t := by simp [inSection]
      refine ⟨?_, (inv n c').published, fun te inside => ?_, fun te inside flushed => ?_⟩
      · simp only [upd_same]
        exact Or.inr ⟨clock.late 0, clock.width 0⟩
      · rw [entered] at inside
        cases inside
        exact ⟨clk 0, upd_same _ _ _ _, clock.late 0, clock.width 0,
          Nat.le_trans (clock.before 0) (clock.notAhead _ node)⟩
      · -- the entry is the newest step, so no flush is later
        rw [entered] at inside
        cases inside
        obtain ⟨e, member, _, after⟩ := flushed
        rcases List.mem_cons.mp member with same | old
        · subst same; exact absurd after (Nat.lt_irrefl _)
        · exact absurd after (Nat.not_lt.mpr (past e old))
    · have other : ¬ (m = n ∧ c = c') := fun h => here ⟨h.1.symm, h.2.symm⟩
      exact (inv m c).frame (upd_ne _ _ other) rfl (by simp [inSection, here]) (by simp)
  | @exit n c' core =>
    by_cases here : n = m ∧ c' = c
    · obtain ⟨rfl, rfl⟩ := here
      have left : inSection n c' (⟨t, .exit n c'⟩ :: h) = none := by simp [inSection]
      refine ⟨?_, (inv n c').published, fun te inside => ?_, fun te inside => ?_⟩
      · simp only [upd_same]
        exact (inv n c').cache.biExit
      · rw [left] at inside; cases inside
      · rw [left] at inside; cases inside
    · have other : ¬ (m = n ∧ c = c') := fun h => here ⟨h.1.symm, h.2.symm⟩
      exact (inv m c).frame (upd_ne _ _ other) rfl (by simp [inSection, here]) (by simp)
  | @timeFlush n =>
    by_cases here : m = n
    · subst here
      refine ⟨(inv m c).cache, ?_, (inv m c).announced, fun te _ _ => ?_⟩
      · simpa using (inv m c).cache
      · simp
    · refine (inv m c).frame rfl ?_ rfl (by simpa using Ne.symm here)
      simp [Function.update_of_ne here]
  | free | cacheFlush | reclaim | fetchHeader | fetchSlot | flushBegin | flushRing | clflush | flushNext | flushEnd =>
    exact (inv m c).frame rfl rfl rfl (by simp)

theorem RecordInv.init {s : Runtime} (init : s.Init) (m c : Nat) : RecordInv [] s m c where
  cache := Or.inl (init.timeCache m c)
  published := Or.inl (init.times m c)
  announced := fun te inside => by cases inside
  current := fun te inside => by cases inside

theorem Run.recordInv {P : Params} {start now : Nat} {s₀ s : Runtime} {h : History} {view : Nat → Nat}
    (init : s₀.Init) (run : Run P start s₀ h now view s) (m c : Nat) : RecordInv h s m c := by
  induction run generalizing m c with
  | init view => exact RecordInv.init init m c
  | step before later node clock act ih =>
    exact RecordInv.step ih (fun e member => Nat.le_trans (before.time_le.2 e member) (Nat.le_of_lt later))
      node clock act m c

/-- The bound of a reclaim at true time `t` is a grace period before the least of the clock reading
and of the announced sections. -/
theorem biQuiesce_bound {P : Params} {h : History} {s : Runtime} {t : Nat} {n : Nat} {view view' clk : Nat → Nat}
    (inv : ∀ m c, RecordInv h s m c) (node : n < P.activeNodes) (clock : Clock P t view view' n clk) :
    let least := biQuiesceSmr n P.activeNodes P.activeCores s.parsecTimes (clk 0)
    biQuiesce n P.activeNodes P.activeCores s.parsecTimes (clk 0) = least - flushGracePeriod ∧
      flushGracePeriod ≤ least ∧ least ≤ t := by
  intro least
  have late : flushGracePeriod ≤ least :=
    le_biQuiesceSmr (clock.late 0) fun m _ c _ inside => ((inv m c).published.inLib inside).1
  have below : least ≤ clk 0 := biQuiesceSmr_le_time _ _ _ _ _
  refine ⟨biQuiesceCache_eq late (Nat.lt_of_le_of_lt below (clock.width 0)), late, ?_⟩
  exact Nat.le_trans below (Nat.le_trans (clock.before 0) (clock.notAhead n node))

theorem flushGracePeriod_pos : 0 < flushGracePeriod := by decide

theorem inSection_mem {m c te : Nat} : ∀ {h : History}, inSection m c h = some te → ∃ e ∈ h, e.time = te := by
  intro h
  induction h with
  | nil => intro inside; cases inside
  | cons e h ih =>
    intro inside
    have older : inSection m c h = some te → ∃ e' ∈ e :: h, e'.time = te := by
      intro inside
      obtain ⟨e', member, time⟩ := ih inside
      exact ⟨e', List.mem_cons_of_mem _ member, time⟩
    unfold inSection at inside
    split at inside
    · split at inside
      · exact ⟨e, List.mem_cons_self, Option.some.inj inside⟩
      · exact older inside
    · split at inside
      · cases inside
      · exact older inside
    · exact older inside

theorem Run.start_lt {P : Params} {start now : Nat} {s₀ s : Runtime} {h : History} {view : Nat → Nat}
    (run : Run P start s₀ h now view s) : ∀ e ∈ h, start < e.time := by
  induction run with
  | init view => exact fun _ member => absurd member List.not_mem_nil
  | step before later node clock act ih =>
    intro e member
    rcases List.mem_cons.mp member with same | old
    · subst same; exact Nat.lt_of_le_of_lt before.start_le later
    · exact ih e old

/-- A section that no flush of its node has published began at most a flush period ago. -/
theorem unpublished_recent {P : Params} {period start now r m c te : Nat} {s₀ s : Runtime} {h : History}
    {view : Nat → Nat} {ev : Ev} (run : Run P start s₀ h now view s) (node : m < P.activeNodes)
    (timely : TimeFlushEvery P period start r (⟨r, ev⟩ :: h)) (notFlush : ev ≠ .timeFlush m)
    (inside : inSection m c h = some te) (unpublished : ¬ ∃ e ∈ h, e.ev = .timeFlush m ∧ te < e.time) :
    r ≤ te + period := by
  obtain ⟨entry, member, rfl⟩ := inSection_mem inside
  have began := run.start_lt entry member
  by_cases long : start + period ≤ r
  · obtain ⟨e, flushed, lower, _, flush⟩ := timely m node (r - period) (by omega) (by omega)
    rcases List.mem_cons.mp flushed with same | old
    · subst same; exact absurd flush notFlush
    · have notAfter : ¬ entry.time < e.time := fun after => unpublished ⟨e, old, flush, after⟩
      omega
  · omega

/-- **The grace period covers every open section**: a section that a core is in was entered at
least `lag` after the bound of a reclaim. -/
theorem section_covered {P : Params} {period start now r n m c te : Nat} {s₀ s : Runtime} {h : History}
    {view view' clk : Nat → Nat} {items : List QuiesItem} (init : s₀.Init) (run : Run P start s₀ h now view s)
    (timely : TimeFlushEvery P period start r (⟨r, .reclaim n .smr items⟩ :: h))
    (grace : period + P.lag ≤ flushGracePeriod) (lag : P.lag < flushGracePeriod) (owner : n < P.activeNodes)
    (clock : Clock P r view view' n clk) (node : m < P.activeNodes) (core : c < P.activeCores)
    (inside : inSection m c h = some te) :
    biQuiesce n P.activeNodes P.activeCores s.parsecTimes (clk 0) + P.lag ≤ te := by
  have records := run.recordInv init
  obtain ⟨bound, late, least⟩ := biQuiesce_bound records owner clock
  rw [bound]
  by_cases published : ∃ e ∈ h, e.ev = .timeFlush m ∧ te < e.time
  · obtain ⟨v, entered, positive, width, before⟩ := (records m c).announced te inside
    have record := ((records m c).current te inside published).trans entered
    have scanned := biQuiesceSmr_le_timeIn n s.parsecTimes (clk 0) node core (by
      rw [record]
      exact psInLib_biEnter (Nat.lt_of_lt_of_le flushGracePeriod_pos positive) width)
    rw [record] at scanned
    have belowEntry : biQuiesceSmr n P.activeNodes P.activeCores s.parsecTimes (clk 0) ≤ v := scanned
    omega
  · have recent := unpublished_recent run node timely (by simp) inside published
    omega

/-- **Reclamation safety.** In every run in which each active node flushes its section records at
least once in every interval of length `period`, with `period + lag` at most the grace period and
`lag` below it: when a reclaim of node `n` hands the object of a ring entry to `bi_slab_free`, that
entry is the object of a `bi_smr_free` call of node `n`, the next one in order, and every section an
active core is in at that moment was entered after that call. -/
theorem reclaim_safe {P : Params} {period start now r n : Nat} {s₀ s : Runtime} {h : History} {view : Nat → Nat}
    {items : List QuiesItem} (init : s₀.Init)
    (run : Run P start s₀ (⟨r, .reclaim n .smr items⟩ :: h) now view s)
    (timely : TimeFlushEvery P period start r (⟨r, .reclaim n .smr items⟩ :: h))
    (grace : period + P.lag ≤ flushGracePeriod) (lag : P.lag < flushGracePeriod) :
    ∀ i a, items[i]? = some a →
      ∃ tf sz, (frees n .smr h)[(takes n .smr h).length + i]? = some (tf, a.obj, sz) ∧
        ∀ m < P.activeNodes, ∀ c < P.activeCores, ∀ te, inSection m c h = some te → ¬ te < tf := by
  intro i a found
  cases run with
  | step before later node clock act =>
    have queue := before.queueInv init n .smr
    cases act with
    | @reclaim _ _ _ ql run =>
    obtain ⟨eligible, put⟩ := queue.reclaimed run found
    -- the free at the same position of the node's history is the one that brought the entry
    have stored : (takes n .smr h).length + i < (puts n .smr h).length := (List.getElem?_eq_some_iff.mp put).1
    obtain ⟨⟨tf, buf, sz⟩, freed⟩ : ∃ f, (frees n .smr h)[(takes n .smr h).length + i]? = some f :=
      ⟨_, List.getElem?_eq_getElem (Nat.lt_of_lt_of_le stored queue.puts_le_frees)⟩
    have entry := congrArg (·[(takes n .smr h).length + i]?) queue.entries
    simp only [List.getElem?_map, freed, Option.map_some] at entry
    rw [List.getElem?_append_left (by simpa using stored), List.getElem?_map, put, Option.map_some] at entry
    obtain ⟨pointer, -⟩ := Prod.mk.inj (Option.some.inj entry)
    have object : buf = a.obj := by
      rw [QuiesItem.obj, ← pointer]
      exact (psMheadMem_psMheadGet buf).symm
    subst object
    refine ⟨tf, sz, freed, fun m node' c core te inside => ?_⟩
    have stamp := queue.freeTimes _ a _ put freed
    have covered := section_covered init before timely grace lag node clock node' core inside
    have below : a.tscFree ≤ biQuiesce n P.activeNodes P.activeCores _ _ := eligible
    simp only at stamp
    omega

/-- One node frees an object, flushes, enters a section that it does not publish and reclaims the
object a grace period after it was stamped. -/
theorem reclaim_safe_unpublished_section :
    let G := flushGracePeriod
    let a : QuiesItem := ⟨psMheadGet 4096, 64, G + 2⟩
    let h : History := [⟨G + 4, .enter 0 0⟩, ⟨G + 3, .timeFlush 0⟩, ⟨G + 2, .cacheFlush 0 .smr [a]⟩,
      ⟨G + 1, .free 0 .smr 4096 64 []⟩]
    ∃ view s, Run ⟨1, 1, 0⟩ G Runtime.blank (⟨2 * G + 3, .reclaim 0 .smr [a]⟩ :: h) (2 * G + 3) view s ∧
      inSection 0 0 h = some (G + 4) ∧ frees 0 .smr h = [(G + 1, 4096, 64)] ∧
      ∃ tf sz, (frees 0 .smr h)[0]? = some (tf, a.obj, sz) ∧ ¬ G + 4 < tf := by
  intro G a h
  -- the queue after the free and after the cache flush, and the ring after the reclaim
  let cached : QscQueue := ⟨⟨Function.update (fun _ => 0) 0 (psMheadGet 4096), Function.update (fun _ => 0) 0 64, 1⟩,
    ⟨0, 0, fun _ => ⟨0, 0, 0⟩⟩⟩
  let ring : BiQscRing := ⟨0, 1, Function.update (fun _ => ⟨0, 0, 0⟩) 0 a⟩
  have run₁ : Run ⟨1, 1, 0⟩ G Runtime.blank [⟨G + 1, .free 0 .smr 4096 64 []⟩] (G + 1) (fun _ => G + 1) _ :=
    (Run.init _).exact (by decide) (by decide) (by decide) (by decide) (.free (q := cached) rfl)
  have run₂ : Run _ _ _ (⟨G + 2, .cacheFlush 0 .smr [a]⟩ :: _) _ _ _ := run₁.exact (by decide) (by decide) (by decide)
    (by decide) (.cacheFlush (q := ⟨qscLocalCacheInit cached.lc, ring⟩) (r := 1) rfl)
  have run₃ := run₂.exact (t := G + 3) (by decide) (by decide) (by decide) (by decide) (.timeFlush (n := 0))
  have run₄ := run₃.exact (t := G + 4) (by decide) (by decide) (by decide) (by decide) (.enter (n := 0) (c := 0) (by decide))
  have run₅ : Run _ _ _ (⟨2 * G + 3, .reclaim 0 .smr [a]⟩ :: _) _ _ _ := run₄.exact (by decide) (by decide) (by decide)
    (by decide) (.reclaim (qscRingReclaim_takes ⟨by decide, by decide⟩ (by decide)))
  have timely : TimeFlushEvery ⟨1, 1, 0⟩ G G (2 * G + 3) (⟨2 * G + 3, .reclaim 0 .smr [a]⟩ :: h) := by
    intro m node t after inside
    obtain rfl : m = 0 := Nat.lt_one_iff.mp node
    have long : 3 ≤ G := by decide
    exact ⟨⟨G + 3, .timeFlush 0⟩, by simp [h], by simp only; omega, by simp only; omega, rfl⟩
  obtain ⟨tf, sz, freed, covered⟩ :=
    reclaim_safe Runtime.blank_init run₅ timely (by decide) (by decide) 0 a rfl
  exact ⟨_, _, run₅, rfl, rfl, tf, sz, freed, covered 0 (by decide) 0 (by decide) (G + 4) rfl⟩

end BiProject.Smr
