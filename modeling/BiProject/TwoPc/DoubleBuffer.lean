import BiProject.TwoPc.Follows

/-!
# Two buffers are enough

Every step through the buffers is followed by the protocol. When a node writes a message the phases of the requests
allow at most one in use of the same pair, so the older buffer is free.
-/

namespace BiProject.TwoPc
set_option autoImplicit false
open BiProject.McServer BiProject.Lib

section
variable {hash : List UInt8 → Nat} {σ σ' : Buffered hash} {τ τ' : System hash} {n src dst : Node} {s c : Side} {m m' : McMsg}

/-- Only the program of a client goes on. -/
theorem Sim.advance (sim : Sim σ τ) (rests : σ.rests c) {stage : Stage} (more : ∀ b, (σ.stage c).controls b ≤ stage.controls b) (k : Nat) :
    Sim { σ with stage := Function.update σ.stage c stage, meeting := k } τ := by
  refine { sim with boxes := sim.boxes.congr rfl rfl rfl, request := fun t dst sends => ?_, controls := fun t b => ?_ }
  · have differ : t ≠ c := by
      rintro rfl
      rw [rests.2.2] at sends
      cases sends
    simpa [differ] using sim.request t dst sends
  · have bound := sim.controls t b
    change _ ≤ (Function.update σ.stage c stage t).controls b
    by_cases same : t = c
    · subst same
      rw [Function.update_self]
      exact Nat.le_trans bound (more b)
    · rwa [Function.update_of_ne same]

theorem advance_cases (step : σ.advance c = some σ') :
    ∃ stage k, σ' = { σ with stage := Function.update σ.stage c stage, meeting := k } ∧ ∀ b, (σ.stage c).controls b ≤ stage.controls b := by
  unfold Buffered.advance at step
  cases now : σ.stage c <;> simp only [now, reduceCtorEq, Option.some.injEq, Option.ite_none_right_eq_some] at step
  · exact ⟨_, _, step.symm, by simp [Stage.controls]⟩
  · exact ⟨_, _, step.symm, by simp [Stage.controls]⟩
  · exact ⟨_, _, step.2.symm, by simp [Stage.controls]⟩
  · exact ⟨_, _, step.symm, by simp [Stage.controls]⟩
  · exact ⟨_, _, step.symm, by simp [Stage.controls]⟩
  · exact ⟨_, _, step.2.symm, by simp [Stage.controls]⟩

/-- A client whose assertion failed does nothing any more. -/
theorem Sim.fail (sim : Sim σ τ) (c : Side) (a : Assertion) : Sim (σ.fail (.client c) a) τ := by
  refine { sim with boxes := sim.boxes.congr rfl rfl rfl, failed := fun t healthy => sim.failed t ?_ }
  by_cases same : t = c
  · subst same
    simp [Buffered.fail] at healthy
  · simpa [Buffered.fail, same] using healthy

theorem Stage.controls_allows {stage : Stage} {op : Op} (allows : stage.allows op = true) (b : Node) : stage.controls b ≤ 1 := by
  cases stage <;> first | grind [Stage.controls] | simp [Stage.allows] at allows

theorem Stage.controls_disconnect {stage : Stage} (cause : stage.disconnect c = some (dst, m)) (b : Node) : stage.controls b ≤ 1 := by
  cases stage <;> first | grind [Stage.controls] | simp [Stage.disconnect] at cause

/-- **Every step through the buffers** is followed. -/
theorem Sim.step {a : BufAct} (sim : Sim σ τ) (step : σ.step a = some σ') (alive : ∀ s, σ'.failed (.server s) = none) : ∃ τ', Sim σ' τ' := by
  cases a with
  | call c op =>
    simp only [Buffered.step, Option.bind_eq_bind, Option.bind_eq_some_iff, Option.guard_eq_some', Option.pure_def,
      Option.some.injEq] at step
    obtain ⟨_, ⟨rests, allows⟩, rfl⟩ := step
    exact ⟨τ, sim.write rests (sim.client_room rests (Stage.controls_allows allows _)) (Or.inr ⟨op, rfl, rfl, rfl⟩)⟩
  | disconnect c =>
    simp only [Buffered.step, Option.bind_eq_bind, Option.bind_eq_some_iff, Option.guard_eq_some', Option.pure_def,
      Option.some.injEq, Prod.exists] at step
    obtain ⟨_, rests, dst, m, cause, rfl⟩ := step
    have written := sim.write rests (sim.client_room rests (Stage.controls_disconnect cause _)) (Or.inl ⟨rfl, cause⟩)
    refine ⟨τ, ?_⟩
    rwa [← rests.2.1, Function.update_eq_self] at written
  | advance c =>
    simp only [Buffered.step, Option.bind_eq_bind, Option.bind_eq_some_iff, Option.guard_eq_some'] at step
    obtain ⟨_, rests, step⟩ := step
    obtain ⟨stage, k, rfl, more⟩ := advance_cases step
    exact ⟨τ, sim.advance rests more k⟩
  | send n =>
    simp only [Buffered.step, Option.bind_eq_bind, Option.bind_eq_some_iff, Option.guard_eq_some', Option.pure_def,
      Option.some.injEq] at step
    obtain ⟨_, healthy, dst, sending, rfl⟩ := step
    cases n with
    | server s =>
      obtain ⟨room, followed⟩ := sim.turn sending
      simpa [Buffered.rpcSend, room] using followed
    | client c =>
      obtain ⟨_, room⟩ := sim.client_queue sending
      obtain ⟨m, drafted, ⟨idle, cause⟩ | ⟨op, pc, rfl, rfl⟩⟩ := sim.request c dst sending
      · refine ⟨τ, ?_⟩
        simpa [Buffered.rpcSend, room] using sim.sendControl sending drafted idle cause
      · simpa [Buffered.rpcSend, room] using sim.sendRequest healthy sending drafted pc
  | recv n src =>
    simp only [Buffered.step, Option.bind_eq_bind, Option.bind_eq_some_iff, Option.guard_eq_some', Option.pure_def,
      Option.some.injEq] at step
    obtain ⟨_, ⟨polls, more⟩, rfl⟩ := step
    exact ⟨τ, sim.recv polls more⟩
  | handle s =>
    simp only [Buffered.step, Option.bind_eq_bind, Option.bind_eq_some_iff, Option.guard_eq_some'] at step
    obtain ⟨_, ⟨_, idle⟩, src, reading, m, here, step⟩ := step
    split at step
    · obtain rfl := (Option.some.inj step).symm
      have failed := alive s
      simp [Buffered.fail] at failed
    · rename_i st done
      obtain rfl := (Option.some.inj step).symm
      exact ⟨τ, sim.control idle reading here done⟩
    · rename_i st dst m' done
      obtain rfl := (Option.some.inj step).symm
      exact ⟨τ, sim.handle idle reading here done⟩
  | answer c =>
    simp only [Buffered.step, Option.bind_eq_bind, Option.bind_eq_some_iff, Option.guard_eq_some'] at step
    obtain ⟨_, healthy, src, reading, m, here, step⟩ := step
    split at step
    · rename_i x _
      obtain rfl := (Option.some.inj step).symm
      exact ⟨τ, sim.fail c x⟩
    · rename_i r done
      obtain rfl := (Option.some.inj step).symm
      exact sim.answer healthy reading here done

theorem bufFail_failed {n' : Node} {x : Assertion} (alive : (σ.fail n x).failed n' = none) : σ.failed n' = none := by
  by_cases same : n' = n
  · subst same
    simp [Buffered.fail] at alive
  · simpa [Buffered.fail, same] using alive

theorem turnDone_failed (σ : Buffered hash) (s : Side) : (σ.turnDone s).failed = σ.failed := by
  unfold Buffered.turnDone
  split <;> rfl

theorem bufSend_failed {n' : Node} (alive : (σ.rpcSend n dst).failed n' = none) : σ.failed n' = none := by
  cases n with
  | server s =>
    simp only [Buffered.rpcSend] at alive
    split at alive
    · rwa [turnDone_failed] at alive
    · exact bufFail_failed alive
  | client c =>
    simp only [Buffered.rpcSend] at alive
    split at alive
    · exact alive
    · split at alive
      · exact alive
      · exact bufFail_failed alive

/-- A node that has failed stays so. -/
theorem buffered_failed {a : BufAct} (step : σ.step a = some σ') (alive : σ'.failed n = none) : σ.failed n = none := by
  cases a with
  | advance c =>
    simp only [Buffered.step, Option.bind_eq_bind, Option.bind_eq_some_iff] at step
    obtain ⟨_, _, step⟩ := step
    obtain ⟨stage, k, rfl, _⟩ := advance_cases step
    exact alive
  | handle s =>
    simp only [Buffered.step, Option.bind_eq_bind, Option.bind_eq_some_iff] at step
    obtain ⟨_, _, src, reading, m, here, step⟩ := step
    split at step <;> obtain rfl := (Option.some.inj step).symm
    · exact bufFail_failed alive
    · exact alive
    · exact alive
  | answer c =>
    simp only [Buffered.step, Option.bind_eq_bind, Option.bind_eq_some_iff] at step
    obtain ⟨_, _, src, reading, m, here, step⟩ := step
    split at step <;> obtain rfl := (Option.some.inj step).symm
    · exact bufFail_failed alive
    · exact alive
  | send n =>
    simp only [Buffered.step, Option.bind_eq_bind, Option.bind_eq_some_iff, Option.pure_def, Option.some.injEq] at step
    obtain ⟨_, _, dst, _, rfl⟩ := step
    exact bufSend_failed alive
  | _ =>
    simp only [Buffered.step, Option.bind_eq_bind, Option.bind_eq_some_iff, Option.pure_def, Option.some.injEq, Prod.exists] at step
    obtain ⟨_, step⟩ := step
    grind [Buffered.write, Buffered.setSending, Buffered.onBox, Buffered.setReading]

theorem run_sim (run : Buffered.Run σ) (alive : ∀ s, σ.failed (.server s) = none) : ∃ τ, Sim σ τ := by
  induction run with
  | init => exact ⟨_, Sim.init⟩
  | step _ step ih =>
    obtain ⟨τ, sim⟩ := ih fun s => buffered_failed step (alive s)
    exact sim.step step alive

/-- The box that a step writes to has at most one message in use. -/
theorem Sim.writes_room {a : BufAct} (sim : Sim σ τ) (step : σ.step a = some σ') (writes : σ.writes a = some (n, dst)) :
    σ.sending n = none ∧ (σ.box n dst).unfinished.length ≤ 1 := by
  cases a with
  | call c op =>
    simp only [Buffered.step, Option.bind_eq_bind, Option.bind_eq_some_iff, Option.guard_eq_some'] at step
    obtain ⟨_, ⟨rests, allows⟩, _⟩ := step
    obtain ⟨rfl, rfl⟩ : .client c = n ∧ .server c = dst := by simpa [Buffered.writes] using writes
    exact ⟨rests.2.2, sim.client_room rests (Stage.controls_allows allows _)⟩
  | disconnect c =>
    simp only [Buffered.step, Option.bind_eq_bind, Option.bind_eq_some_iff, Option.guard_eq_some', Prod.exists] at step
    obtain ⟨_, rests, dst', m, cause, _⟩ := step
    obtain ⟨rfl, rfl⟩ : .client c = n ∧ dst' = dst := by simpa [Buffered.writes, cause] using writes
    exact ⟨rests.2.2, sim.client_room rests (Stage.controls_disconnect cause _)⟩
  | handle s =>
    simp only [Buffered.step, Option.bind_eq_bind, Option.bind_eq_some_iff, Option.guard_eq_some'] at step
    obtain ⟨_, ⟨_, idle⟩, src, reading, m, here, _⟩ := step
    simp only [Buffered.writes, reading, here, Option.bind_eq_bind, Option.bind_some, Option.bind_eq_some_iff, Option.pure_def,
      Option.some.injEq, Prod.mk.injEq] at writes
    obtain ⟨dst', target, rfl, rfl⟩ := writes
    exact ⟨idle, (sim.server_room idle here target).2⟩
  | _ => cases writes

/-- **Two buffers are enough.** As long as no server has failed a buffer that is written to holds no message in a queue
and none that its handler may still read; `rpc_send` finds room for every message; and what was sent is, with the
contents it had then, what was handled and after it what is still pending. -/
theorem buffers_suffice (hash : List UInt8 → Nat) (σ : Buffered hash) (run : Buffered.Run σ)
    (alive : ∀ s, σ.failed (.server s) = none) :
    (∀ a σ' n dst, σ.step a = some σ' → σ.writes a = some (n, dst) → (σ.box n dst).idx % 2 ∉ (σ.box n dst).inUse) ∧
      (∀ n dst, σ.sending n = some dst → σ.room n dst = true) ∧
      ∀ src dst, (σ.box src dst).sent = (σ.box src dst).handled ++ (σ.box src dst).pending.map (σ.box src dst).buf := by
  obtain ⟨τ, sim⟩ := run_sim run alive
  refine ⟨fun a σ' n dst step writes inside => ?_, fun n dst sending => ?_, fun src dst => (sim.boxes.ok src dst).contents⟩
  · obtain ⟨idle, room⟩ := sim.writes_room step writes
    refine (sim.boxes.ok n dst).free ?_ (List.mem_append_left _ inside)
    rw [sim.boxes.flight_eq idle]
    omega
  · cases n with
    | server s => exact (sim.turn sending).1
    | client c => exact (sim.client_queue sending).2

end

end BiProject.TwoPc
