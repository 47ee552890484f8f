import BiProject.TwoPc.Moves

/-!
# The two tables are one store

A GET takes effect when its server looks the key up, a SET when the second server writes it. Until then the first
server is ahead by that key, but the only client that reads its table is the one that waits for the SET. So every GET
reads the map that the calls so far have made, and between SETs both tables are that map.
-/

namespace BiProject.TwoPc
set_option autoImplicit false
open BiProject.McServer BiProject.Lib.Histories

/-- The table of a server whose client's request is in this phase, when the calls so far have made the map. -/
def Phase.view (m : Key → Option (List UInt8)) : Phase → Key → Option (List UInt8)
  | .commit k v => Function.update m k (some v.1)
  | _ => m

/-- The call a client waits for, with its result once it took effect. -/
def Phase.pending : Phase → Option (Op × Option Res)
  | .idle => none
  | .get k => some (.get k, none)
  | .got k data | .aborted k data => some (.get k, some (.got data))
  | .set k v | .prepare k v | .prepareOk k v | .commit k v => some (.set k v, none)
  | .commitOk k v | .setOk k v => some (.set k v, some .stored)

attribute [simp] Phase.view.eq_1 Phase.view.eq_2

/-- The empty store. -/
def noKeys : Key → Option (List UInt8) := fun _ => none

/-- **The calls that took effect explain the tables and the answers.** -/
structure Lin {hash : List UInt8 → Nat} (σ : System hash) (ph : Side → Phase) (es : List (Entry Op Res))
    (pend : Side → Option (Pending Op Res)) : Prop where
  points : Points σ.hist es pend
  legal : Legal spec noKeys es
  tables : ∀ s k, (σ.srv s).table.mcGetKeyExt k = (ph s).view (after spec noKeys es) k
  pending : ∀ c, (pend c).map (fun p => (p.op, p.res)) = (ph c).pending

section
variable {hash : List UInt8 → Nat} {σ σ' : System hash} {ph ph' : Side → Phase} {es : List (Entry Op Res)}
  {pend : Side → Option (Pending Op Res)} {a : Act} {c : Side} {q : Phase}

theorem Lin.init : Lin (System.init : System hash) (fun _ => .idle) [] fun _ => none := by
  refine ⟨Points.start, trivial, fun s k => ?_, fun _ => rfl⟩
  exact Table.empty_get k

/-- What a client waits for. -/
theorem Lin.pending_eq (lin : Lin σ ph es pend) {op : Op} {res : Option Res} (was : (ph c).pending = some (op, res)) :
    ∃ i, pend c = some ⟨i, op, res⟩ := by
  have pending := lin.pending c
  rw [was] at pending
  obtain ⟨⟨i, op', res'⟩, here, same⟩ := Option.map_eq_some_iff.mp pending
  rw [Prod.mk.injEq] at same
  obtain ⟨rfl, rfl⟩ := same
  exact ⟨i, here⟩

/-- A move that the tables do not see, before and after. -/
theorem Lin.tables_move (lin : Lin σ ph es pend) (tables : ∀ s, (σ'.srv s).table = (σ.srv s).table)
    (same : ∀ m, q.view m = (ph c).view m) (s : Side) (k : Key) :
    (σ'.srv s).table.mcGetKeyExt k = (Function.update ph c q s).view (after spec noKeys es) k := by
  rw [tables, lin.tables]
  by_cases here : s = c
  · subst here
    rw [Function.update_self, same]
  · rw [Function.update_of_ne here]

theorem pending_update (pend : Side → Option (Pending Op Res)) {p : Option (Pending Op Res)}
    (others : ∀ c, (pend c).map (fun p => (p.op, p.res)) = (ph c).pending) (now : p.map (fun p => (p.op, p.res)) = q.pending) (d : Side) :
    (Function.update pend c p d).map (fun p => (p.op, p.res)) = (Function.update ph c q d).pending := by
  by_cases same : d = c
  · subst same
    rw [Function.update_self, Function.update_self, now]
  · rw [Function.update_of_ne same, Function.update_of_ne same, others]

/-- A move that nobody sees. -/
theorem Lin.silent (lin : Lin σ ph es pend) (hist : σ'.hist = σ.hist) (tables : ∀ s, (σ'.srv s).table = (σ.srv s).table)
    (view : ∀ m, q.view m = (ph c).view m) (pending : q.pending = (ph c).pending) : Lin σ' (Function.update ph c q) es pend := by
  refine ⟨hist ▸ lin.points, lin.legal, lin.tables_move tables view, fun d => ?_⟩
  have kept := pending_update (p := pend c) (c := c) (q := q) pend lin.pending (by rw [lin.pending, pending]) d
  rwa [Function.update_eq_self] at kept

/-- **Every move** keeps the explanation. -/
theorem Lin.step (lin : Lin σ ph es pend) (ok : Ok σ ph) (moved : Moved σ σ' ph a ph') : ∃ es pend, Lin σ' ph' es pend := by
  cases moved with
  | @call c op was hist tables =>
    refine ⟨es, _, hist ▸ lin.points.call c op, lin.legal, lin.tables_move tables ?_, pending_update pend lin.pending ?_⟩
    · intro m
      cases op <;> simp [was, Op.phase]
    · cases op <;> rfl
  | @read c k was hist tables =>
    obtain ⟨i, waits⟩ := lin.pending_eq (c := c) (by rw [was]; rfl)
    have value : (σ.srv c).table.mcGetKeyExt k = after spec noKeys es k := by
      simpa [was] using lin.tables c k
    refine ⟨_, _, hist ▸ lin.points.point waits (.got ((σ.srv c).table.mcGetKeyExt k)), legal_append.mpr ⟨lin.legal, ?_⟩, ?_,
      pending_update pend lin.pending rfl⟩
    · rw [value]
      rfl
    · rw [after_append]
      exact lin.tables_move tables (by simp [was])
  | @pass c q was hist tables =>
    refine ⟨es, pend, lin.silent hist tables ?_ ?_⟩
    · generalize ph c = now at was
      cases was <;> simp
    · generalize ph c = now at was
      cases was <;> rfl
  | @write c k v was hist table tablePeer =>
    refine ⟨es, pend, hist ▸ lin.points, lin.legal, fun s k' => ?_, fun d => ?_⟩
    · rcases side_cases c s with rfl | rfl
      · rw [table, Table.set_get, lin.tables, Function.update_self, was]
        simp [Function.update_apply]
      · rw [tablePeer, lin.tables, Function.update_of_ne (peer_ne c)]
    · rw [lin.pending]
      by_cases same : d = c
      · subst same
        rw [Function.update_self, was]
        rfl
      · rw [Function.update_of_ne same]
  | @agree c k v was hist table tablePeer =>
    obtain ⟨i, waits⟩ := lin.pending_eq (c := c) (by rw [was]; rfl)
    refine ⟨_, _, hist ▸ lin.points.point waits .stored, legal_append.mpr ⟨lin.legal, rfl⟩, fun s k' => ?_,
      pending_update pend lin.pending rfl⟩
    rw [after_append]
    rcases side_cases c s with rfl | rfl
    · rw [table, lin.tables, Function.update_self, was]
      rfl
    · rw [tablePeer, Table.set_get, lin.tables, Function.update_of_ne (peer_ne c)]
      -- a SET of the other client that is as far has another key
      have other := ok.distinct c k (by simp [was])
      cases now : ph (peer c) with
      | commit k₂ v₂ =>
        have differ : k ≠ k₂ := by simpa [now] using other.2
        simp only [Phase.view, spec, Function.update_apply]
        by_cases first : k' = k
        · subst first
          simp [differ]
        · simp [first]
      | _ => simp [Phase.view, spec, Function.update_apply]
  | @ret c r was hist tables =>
    obtain ⟨op, now⟩ : ∃ op, (ph c).pending = some (op, some r) := by
      generalize ph c = now at was
      cases was with
      | got k data => exact ⟨.get k, rfl⟩
      | setOk k v => exact ⟨.set k v, rfl⟩
    obtain ⟨i, waits⟩ := lin.pending_eq now
    refine ⟨es, _, hist ▸ lin.points.ret waits, lin.legal, lin.tables_move tables fun m => ?_, pending_update pend lin.pending rfl⟩
    generalize ph c = now at was
    cases was <;> simp
  | @abort c k data was hist tables =>
    exact ⟨es, pend, lin.silent hist tables (by simp [was]) (by rw [was]; rfl)⟩

/-- The states of runs in which no server has failed. -/
theorem reachable_lin (reach : Reachable σ) (alive : ∀ s, σ.failed (.server s) = none) :
    ∃ ph es pend, Ok σ ph ∧ Lin σ ph es pend := by
  induction reach with
  | init => exact ⟨_, _, _, Ok.init, Lin.init⟩
  | step _ _ step ih =>
    obtain ⟨ph, es, pend, ok, lin⟩ := ih fun s => step_failed step (alive s)
    rcases ok.step step with ⟨_, s, failed⟩ | ⟨ph', ok', moved⟩
    · rw [alive s] at failed
      cases failed
    · obtain ⟨es', pend', lin'⟩ := lin.step ok moved
      exact ⟨ph', es', pend', ok', lin'⟩

/-- **As long as no server has failed the calls of the clients are linearizable with respect to one map, and the tables of
the servers agree whenever no SET is in progress.** -/
theorem replicas_linearizable (hash : List UInt8 → Nat) (σ : System hash) (reach : Reachable σ)
    (alive : ∀ s, σ.failed (.server s) = none) :
    Linearizable spec noKeys σ.hist ∧
      ((∀ c k v, σ.client c ≠ .setKey k v) → ∀ k, (σ.srv 0).table.mcGetKeyExt k = (σ.srv 1).table.mcGetKeyExt k) := by
  obtain ⟨ph, es, pend, ok, lin⟩ := reachable_lin reach alive
  refine ⟨lin.points.linearizable lin.legal, fun quiet k => ?_⟩
  have whole : ∀ s, (ph s).view (after spec noKeys es) = after spec noKeys es := by
    intro s
    have pc := ok.pc s
    cases now : ph s with
    | commit k v =>
      rw [now] at pc
      exact absurd pc (quiet s k v)
    | _ => simp
  rw [lin.tables, lin.tables, whole, whole]

end

/-- Client 0 sets a key, and then client 1 gets it. -/
theorem replicas_setThenGet :
    ∃ σ : System fun _ => 0, Reachable σ ∧ σ.hist.length = 4 ∧ Linearizable spec noKeys σ.hist ∧
      ∀ k, (σ.srv 0).table.mcGetKeyExt k = (σ.srv 1).table.mcGetKeyExt k := by
  let acts : List Act :=
    [.set 0 someKey someValue, .turn 0 (.client 0), .turn 1 (.server 0), .turn 0 (.server 1), .turn 1 (.server 0), .turn 0 (.server 1),
      .reply 0 (.server 0), .get 1 someKey, .turn 1 (.client 1), .reply 1 (.server 1)]
  have run : (acts.foldlM System.step (System.init : System fun _ => 0)).map
      (fun σ => (σ.hist.length, σ.failed (.server 0), σ.failed (.server 1), σ.client 0, σ.client 1)) =
        some (4, none, none, .idle, .idle) := by
    decide
  obtain ⟨σ, reached, seen⟩ := Option.map_eq_some_iff.mp run
  simp only [Prod.mk.injEq] at seen
  obtain ⟨hist, alive₀, alive₁, idle₀, idle₁⟩ := seen
  have reach := reachable_foldlM acts .init reached
  have result := replicas_linearizable _ σ reach (by simp [Fin.forall_fin_two, alive₀, alive₁])
  exact ⟨σ, reach, hist, result.1, result.2 (by simp [Fin.forall_fin_two, idle₀, idle₁])⟩

end BiProject.TwoPc
