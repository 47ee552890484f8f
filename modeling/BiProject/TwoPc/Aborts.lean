import BiProject.TwoPc.Moves

/-!
# When the protocol aborts a server

`mc_commit` returns 1 for a key that is in the log, and `event_loop` asserts that it does not. Two clients that set one
key at the same time make it fail: each server logs the key for its own client and then gets the PREPARE of the
other. It does not fail in runs in which a server takes a SET only while no log holds its key, and nothing else ever
fails there.
-/

namespace BiProject.TwoPc
set_option autoImplicit false
open BiProject.McServer BiProject.Lib.Histories

section
variable {hash : List UInt8 → Nat} {σ σ' : System hash} {ph ph' : Side → Phase} {a : Act}

/-- A server takes a SET of a key only while neither log holds it. -/
def Careful (σ : System hash) : Act → Prop
  | .turn s src => ∀ id key data rest, σ.chan src (.server s) = .set id key data :: rest → ∀ t i, (σ.srv t).logKey i ≠ key
  | _ => True

/-- The keys that the two requests have in the logs. -/
def Apart (ph : Side → Phase) : Prop :=
  ∀ c, ∀ k, k ∈ (ph c).ownLog ∨ k ∈ (ph c).othLog → k ∉ (ph (peer c)).ownLog ∧ k ∉ (ph (peer c)).othLog

theorem LogHolds.mem_iff {log : LogKey} {ks : List Key} {k : Key} (holds : LogHolds log ks) : k ∈ ks ↔ ∃ i, log i = k.1 := by
  obtain ⟨slot, is, keys⟩ := holds
  rw [← keys.mem_iff, List.reduceOption_mem_iff]
  have same : ∀ i, slot i = some k ↔ log i = k.1 := by
    intro i
    rw [← (is i).strncmp_iff k, strncmpZero_iff k.2.1 (is i).length k.2.2]
    exact eq_comm
  rw [Fin.exists_fin_two, ← same, ← same]
  simp [eq_comm]

/-- Where the requests of both clients have different keys in the logs no turn is refused. -/
theorem Apart.not_refused (ok : Ok σ ph) (apart : Apart ph) (careful : Careful σ a) : ¬ Refused ph a := by
  intro refused
  cases refused with
  | @set c k v was held =>
    have queue : σ.chan (.client c) (.server c) = [.set (.client c) k v] := by
      rw [ok.req, was]
      rfl
    obtain ⟨i, here⟩ := (ok.log c).mem_iff.mp (List.mem_append_right _ held)
    exact careful _ _ _ _ queue c i here
  | @prepare c k v was held => exact (apart c k (Or.inl (by simp [was]))).1 held

/-- A request that moves on keeps its key, or lets it go. -/
theorem Apart.shrink {c : Side} {q : Phase} (apart : Apart ph)
    (less : ∀ k, k ∈ q.ownLog ∨ k ∈ q.othLog → k ∈ (ph c).ownLog ∨ k ∈ (ph c).othLog) : Apart (Function.update ph c q) := by
  intro t k inside
  rcases side_cases c t with rfl | rfl
  · rw [Function.update_self] at inside
    rw [Function.update_of_ne (peer_ne t)]
    exact apart t k (less k inside)
  · rw [Function.update_of_ne (peer_ne c)] at inside
    rw [peer_peer, Function.update_self]
    have other := apart (peer c) k inside
    rw [peer_peer] at other
    exact ⟨fun own => (less k (Or.inl own)).elim other.1 other.2, fun oth => (less k (Or.inr oth)).elim other.1 other.2⟩

/-- **A careful step** keeps the keys apart. -/
theorem Apart.step (apart : Apart ph) (ok : Ok σ ph) (careful : Careful σ a) (moved : Moved σ σ' ph a ph') : Apart ph' := by
  cases moved with
  | @call c op was _ _ =>
    apply apart.shrink
    cases op <;> simp [Op.phase]
  | read was _ _ => exact apart.shrink (by simp)
  | @pass c q was _ _ =>
    generalize before : ph c = now at was
    cases was with
    | set k v =>
      -- the key is new in both logs
      have queue : σ.chan (.client c) (.server c) = [.set (.client c) k v] := by
        rw [ok.req, before]
        rfl
      have new : ∀ s, k ∉ (ph s).ownLog ++ (ph (peer s)).othLog := by
        intro s inside
        obtain ⟨i, here⟩ := (ok.log s).mem_iff.mp inside
        exact careful _ _ _ _ queue s i here
      have here := new c
      have there := new (peer c)
      rw [List.mem_append, not_or] at here there
      intro t k' inside
      rcases side_cases c t with rfl | rfl
      · rw [Function.update_self] at inside
        rw [Function.update_of_ne (peer_ne t)]
        obtain rfl : k' = k := by simpa using inside
        exact ⟨there.1, here.2⟩
      · rw [Function.update_of_ne (peer_ne c)] at inside
        rw [peer_peer, Function.update_self]
        have differ : k' ≠ k := by
          rintro rfl
          exact inside.elim there.1 here.2
        simpa using differ
    | prepare k v => exact apart.shrink (by simp [before])
    | commitOk k v => exact apart.shrink (by simp)
  | write was _ _ _ => exact apart.shrink (by simp [was])
  | agree was _ _ _ => exact apart.shrink (by simp)
  | ret was _ _ => exact apart.shrink (by simp)
  | abort was _ _ => exact apart.shrink (by simp)

theorem reach_careful (reach : Reach Careful σ) : ∃ ph, Ok σ ph ∧ Apart ph := by
  induction reach with
  | init => exact ⟨_, Ok.init, by simp [Apart]⟩
  | step _ careful step ih =>
    obtain ⟨ph, ok, apart⟩ := ih
    rcases ok.step step with ⟨refused, _⟩ | ⟨ph', ok', moved⟩
    · exact absurd refused (Apart.not_refused ok apart careful)
    · exact ⟨ph', ok', apart.step ok careful moved⟩

/-- **No assertion of a server fails in a run in which a server takes a SET only while no log holds its key**, and the
only one of a client that can fail is about the bytes of a value. -/
theorem no_assertion_fails (hash : List UInt8 → Nat) (σ : System hash) (reach : Reach Careful σ) :
    (∀ s, σ.failed (.server s) = none) ∧ ∀ c, σ.failed (.client c) = none ∨ σ.failed (.client c) = some .replyData := by
  obtain ⟨ph, ok, _⟩ := reach_careful reach
  refine ⟨ok.alive, fun c => ?_⟩
  rw [ok.failed]
  cases ph c <;> simp

end

/-! ## Two clients set one key -/

/-- **Two clients that set one key at the same time abort a server**: both servers take the SET, and then server 0 gets the
PREPARE. -/
theorem crossing_aborts :
    ¬ ∀ σ : System fun _ => 0, Reachable σ → ∀ s, σ.failed (.server s) = none := by
  intro never
  let acts : List Act :=
    [.set 0 someKey someValue, .set 1 someKey someValue, .turn 0 (.client 0), .turn 1 (.client 1), .turn 0 (.server 1)]
  have run : (acts.foldlM System.step (System.init : System fun _ => 0)).map (·.failed (.server 0)) = some (some .keyHeld) := by
    decide
  obtain ⟨σ, reached, failed⟩ := Option.map_eq_some_iff.mp run
  have alive := never σ (reachable_foldlM acts .init reached) 0
  rw [alive] at failed
  cases failed

/-- One client sets a key, and both servers log it. -/
theorem careful_prepares : ∃ σ : System fun _ => 0, Reach Careful σ ∧ (σ.srv 1).logKey 1 = someKey.1 ∧
    ∀ s, σ.failed (.server s) = none := by
  obtain ⟨σ, reach, held⟩ : ∃ σ : System fun _ => 0, Reach Careful σ ∧ (σ.srv 1).logKey 1 = someKey.1 := by
    have set : Reach Careful (_ : System fun _ => 0) := .step (a := .set 0 someKey someValue) .init trivial rfl
    have taken := set.step (a := .turn 0 (.client 0)) (by
      intro id key data rest queue t i
      have head : McMsg.set (.client 0) someKey someValue = .set id key data := (List.cons.inj queue).1
      cases head
      revert t i
      decide) rfl
    have prepared := taken.step (a := .turn 1 (.server 0)) (by
      intro id key data rest queue
      cases (List.cons.inj queue).1) rfl
    exact ⟨_, prepared, by decide⟩
  exact ⟨σ, reach, held, (no_assertion_fails _ σ reach).1⟩

end BiProject.TwoPc
