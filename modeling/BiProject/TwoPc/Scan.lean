import BiProject.TwoPc.Course

/-!
# The order of `rpc_recv`

A server that is about to leave its loop has nothing before it. All that could still be there when it takes MC_EXIT is MC_BEGIN in the
queue of client 2, at server 1. That message is in its queue before client 3 makes its first request; so as long as it is, and the server
is past that queue, no request of client 3 has been handled, and client 3 is not through with its trace.
-/

namespace BiProject.TwoPc
set_option autoImplicit false
open BiProject.McServer BiProject.Lib

section
variable {hash : List UInt8 → Nat} {prog : Program} {σ σ' : Running hash} {τ τ' : System hash} {n src dst : Node} {s c d : Side} {m : McMsg}

/-! ## The steps of the programs -/

/-- What a step of the programs does beside the step of the nodes. -/
inductive Goes (prog : Program) (σ : Running hash) : RunAct → Running hash → Prop where
  | call {c : Side} {op : Op} {rest : List Op} {nodes : Buffered hash} (next : σ.todo c = op :: rest)
      (move : Move σ.nodes (.call c op) nodes) : Goes prog σ (.call c) { σ with nodes := nodes, todo := Function.update σ.todo c rest }
  | advance {c : Side} {nodes : Buffered hash} (none : σ.todo c = []) (move : Move σ.nodes (.advance c) nodes) : Goes prog σ (.advance c)
      { σ with nodes := nodes, todo := if σ.nodes.stage c = .wait1 then Function.update σ.todo c ((prog.trace c).map Line.op) else σ.todo }
  | recv {n : Node} {nodes : Buffered hash} (move : Move σ.nodes (.recv n (σ.scan n)) nodes) :
      Goes prog σ (.recv n) { σ with nodes := nodes, scan := Function.update σ.scan n n.next }
  | pass {n : Node} (polls : σ.nodes.polls n) (empty : (σ.nodes.box (σ.scan n) n).queue = []) :
      Goes prog σ (.pass n) { σ with scan := Function.update σ.scan n (scanNext n (σ.scan n)) }
  | disconnect {c : Side} {nodes : Buffered hash} (move : Move σ.nodes (.disconnect c) nodes) : Goes prog σ (.disconnect c) { σ with nodes := nodes }
  | send {n : Node} {nodes : Buffered hash} (move : Move σ.nodes (.send n) nodes) : Goes prog σ (.send n) { σ with nodes := nodes }
  | handle {s : Side} {nodes : Buffered hash} (move : Move σ.nodes (.handle s) nodes) : Goes prog σ (.handle s) { σ with nodes := nodes }
  | answer {c : Side} {nodes : Buffered hash} (move : Move σ.nodes (.answer c) nodes) : Goes prog σ (.answer c) { σ with nodes := nodes }

/-- Every step is one of these. -/
theorem Running.goes {a : RunAct} (sim : Sim σ.nodes τ) (step : σ.step prog a = some σ') (alive : ∀ s, σ'.nodes.failed (.server s) = none) :
    Goes prog σ a σ' := by
  cases a with
  | call c =>
    simp only [Running.step] at step
    split at step
    · cases step
    · rename_i op rest next
      obtain ⟨nodes, made, rfl⟩ := Option.map_eq_some_iff.mp step
      exact .call next (sim.move made alive)
  | advance c =>
    simp only [Running.step, Option.ite_none_right_eq_some] at step
    obtain ⟨nodes, made, rfl⟩ := Option.map_eq_some_iff.mp step.2
    exact .advance (List.isEmpty_iff.mp step.1) (sim.move made alive)
  | recv n =>
    obtain ⟨nodes, made, rfl⟩ := Option.map_eq_some_iff.mp step
    exact .recv (sim.move made alive)
  | pass n =>
    simp only [Running.step, Option.ite_none_right_eq_some, Option.some.injEq] at step
    obtain ⟨⟨polls, empty⟩, rfl⟩ := step
    exact .pass polls empty
  | disconnect c =>
    obtain ⟨nodes, made, rfl⟩ := Option.map_eq_some_iff.mp step
    exact .disconnect (sim.move made alive)
  | send n =>
    obtain ⟨nodes, made, rfl⟩ := Option.map_eq_some_iff.mp step
    exact .send (sim.move made alive)
  | handle s =>
    obtain ⟨nodes, made, rfl⟩ := Option.map_eq_some_iff.mp step
    exact .handle (sim.move made alive)
  | answer c =>
    obtain ⟨nodes, made, rfl⟩ := Option.map_eq_some_iff.mp step
    exact .answer (sim.move made alive)

/-- A step of the programs moves the nodes, unless it passes on, and a call is the next one. -/
theorem Goes.move {a : RunAct} (goes : Goes prog σ a σ') (counts : a.count ≠ 0) :
    ∃ b, Move σ.nodes b σ'.nodes ∧ ∀ c op, b = .call c op → op ∈ σ.todo c := by
  cases goes with
  | pass => exact absurd rfl counts
  | call next move =>
    refine ⟨_, move, fun c op is => ?_⟩
    cases is
    rw [next]
    exact List.mem_cons_self
  | advance _ move | recv move | disconnect move | send move | handle move | answer move => exact ⟨_, move, by simp⟩

/-! ## The calls that are left -/

/-- A client has calls left only while it makes them, and all are those of the program. -/
structure Todo (σ : Running hash) : Prop where
  rest : ∀ c, (σ.nodes.stage c).busy = false → σ.todo c = []
  dollars : ∀ c, ∀ op ∈ σ.todo c, (op.request c).Dollars
  loads : ∀ c, σ.nodes.stage c = .preload → ∀ op ∈ σ.todo c, Stage.preload.allows op = true

/-- It is so at the start. -/
theorem Todo.init (prog : Program) : Todo (Running.init prog : Running hash) := by
  constructor
  · intro c idle
    simp only [Running.init, Buffered.init] at idle ⊢
    by_cases first : c = node0
    · rw [if_pos first] at idle
      cases idle
    · rw [if_neg first]
  · intro c op member
    simp only [Running.init] at member
    split at member
    · obtain ⟨key, _, rfl⟩ := List.mem_map.mp member
      exact rfl
    · cases member
  · intro c _ op member
    simp only [Running.init] at member
    split at member
    · obtain ⟨key, _, rfl⟩ := List.mem_map.mp member
      exact rfl
    · cases member

/-- A line of the trace asks for nothing but `$`. -/
theorem Line.dollars (line : Line) : (line.op.request c).Dollars := by
  cases line <;> simp [Line.op, Op.request, McMsg.Dollars]

/-- A client that disconnects makes no calls, and does not come back to loading. -/
theorem Stage.busy_of_disconnect {stage : Stage} (cause : stage.disconnect c = some (dst, m)) : stage.busy = false ∧ stage.next ≠ .preload := by
  rcases Stage.disconnect_eq cause with ⟨rfl, _⟩ | ⟨rfl, _⟩ | ⟨rfl, _⟩ <;> exact ⟨rfl, by simp [Stage.next]⟩

/-- A client that goes on in its program. -/
theorem Move.advance_stage {b : BufAct} {ν ν' : Buffered hash} (move : Move ν b ν') (is : b = .advance c) :
    ν'.stage c ≠ .preload ∧ (ν.stage c = .wait1 ∧ ν'.stage c = .bench ∨ ν.stage c ≠ .wait1 ∧ (ν'.stage c).busy = false) := by
  subst is
  cases move with
  | advance rests next =>
    unfold Buffered.advance at next
    cases was : ν.stage c <;> simp only [was, reduceCtorEq, Option.some.injEq, Option.ite_none_right_eq_some] at next
    case wait1 =>
      rw [← next.2]
      simp
    case wait2 =>
      rw [← next.2]
      simp [Stage.busy]
    all_goals
      rw [← next]
      simp [Stage.busy]

/-- A step that is not of the client's program and makes no call. -/
theorem Todo.same (todo : Todo σ) {b : BufAct} (move : Move σ.nodes b σ'.nodes) (other : ∀ c, b ≠ .advance c) (same : σ'.todo = σ.todo) :
    Todo σ' := by
  have stages : ∀ c, (σ'.nodes.stage c).busy = false → (σ.nodes.stage c).busy = false := by
    intro c idle
    rcases move.stage_cases c with still | ⟨_, ⟨rfl, _⟩ | ⟨_, dst, m, _, _, cause, _⟩⟩
    · rwa [← still]
    · exact absurd rfl (other c)
    · exact (Stage.busy_of_disconnect cause).1
  constructor
  · intro c idle
    rw [same]
    exact todo.rest c (stages c idle)
  · rw [same]
    exact todo.dollars
  · intro c loads
    rw [same]
    refine todo.loads c ?_
    rcases move.stage_cases c with still | ⟨_, ⟨rfl, _⟩ | ⟨_, dst, m, _, _, cause, next⟩⟩
    · rwa [← still]
    · exact absurd rfl (other c)
    · rw [next] at loads
      exact absurd loads (Stage.busy_of_disconnect cause).2

/-- **Each step** keeps it so. -/
theorem Todo.step {a : RunAct} (todo : Todo σ) (goes : Goes prog σ a σ') : Todo σ' := by
  cases goes with
  | @call c op rest nodes next move =>
    have still : ∀ d, nodes.stage d = σ.nodes.stage d := by
      intro d
      rcases move.stage_cases d with same | ⟨_, ⟨is, _⟩ | ⟨is, _⟩⟩
      · exact same
      · cases is
      · cases is
    have part : ∀ d, ∀ op' ∈ Function.update σ.todo c rest d, op' ∈ σ.todo d := by
      intro d op' member
      by_cases same : d = c
      · subst same
        rw [next]
        exact List.mem_cons_of_mem _ (by simpa using member)
      · simpa [same] using member
    refine ⟨fun d idle => ?_, fun d op' member => todo.dollars d op' (part d op' member), fun d loads op' member => ?_⟩
    · have none := todo.rest d ((still d) ▸ idle)
      change Function.update σ.todo c rest d = []
      by_contra some
      obtain ⟨op', member⟩ := List.exists_mem_of_ne_nil _ some
      have old := part d op' member
      rw [none] at old
      cases old
    · exact todo.loads d ((still d) ▸ loads) op' (part d op' member)
  | @advance c nodes none move =>
    obtain ⟨fresh, now⟩ := move.advance_stage rfl
    have others : ∀ d, d ≠ c → nodes.stage d = σ.nodes.stage d := by
      intro d differ
      rcases move.stage_cases d with same | ⟨_, ⟨is, _⟩ | ⟨is, _⟩⟩
      · exact same
      · cases is
        exact absurd rfl differ
      · cases is
    refine ⟨fun d idle => ?_, fun d op member => ?_, fun d loads op member => ?_⟩
    · by_cases same : d = c
      · subst same
        rcases now with ⟨_, bench⟩ | ⟨still, _⟩
        · rw [show ({ σ with nodes := nodes, todo := _ } : Running hash).nodes.stage d = .bench from bench] at idle
          cases idle
        · simpa [still] using none
      · have before := todo.rest d ((others d same) ▸ idle)
        change (if σ.nodes.stage c = .wait1 then Function.update σ.todo c ((prog.trace c).map Line.op) else σ.todo) d = []
        split
        · rwa [Function.update_of_ne same]
        · exact before
    · change op ∈ (if σ.nodes.stage c = .wait1 then Function.update σ.todo c ((prog.trace c).map Line.op) else σ.todo) d at member
      split at member
      · by_cases same : d = c
        · subst same
          rw [Function.update_self] at member
          obtain ⟨line, _, rfl⟩ := List.mem_map.mp member
          exact line.dollars
        · rw [Function.update_of_ne same] at member
          exact todo.dollars d op member
      · exact todo.dollars d op member
    · have differ : d ≠ c := by
        rintro rfl
        exact fresh loads
      change op ∈ (if σ.nodes.stage c = .wait1 then Function.update σ.todo c ((prog.trace c).map Line.op) else σ.todo) d at member
      split at member
      · rw [Function.update_of_ne differ] at member
        exact todo.loads d ((others d differ) ▸ loads) op member
      · exact todo.loads d ((others d differ) ▸ loads) op member
  | pass polls empty => exact ⟨todo.rest, todo.dollars, todo.loads⟩
  | recv move => exact todo.same move (fun _ => by simp) rfl
  | disconnect move => exact todo.same move (fun _ => by simp) rfl
  | send move => exact todo.same move (fun _ => by simp) rfl
  | handle move => exact todo.same move (fun _ => by simp) rfl
  | answer move => exact todo.same move (fun _ => by simp) rfl

/-! ## What the servers look into -/

/-- Both requests are idle, and nothing of them is under way. -/
theorem Sim.quiet {ν : Buffered hash} (sim : Sim ν τ) (idle : ∀ c, ν.client c = .idle) (src dst : Node) : τ.chan src dst = [] := by
  obtain ⟨ph, ok⟩ := sim.ok
  have was : ∀ c, ph c = .idle := by
    intro c
    refine Phase.eq_idle ?_
    rw [← ok.pc, sim.client, idle, ite_self]
  by_cases inUse : used src dst
  · cases src with
    | client c =>
      cases dst with
      | server s =>
        obtain rfl : c = s := inUse
        rw [ok.req, was]
        rfl
      | client d => exact inUse.elim
    | server s =>
      cases dst with
      | server t =>
        obtain rfl : t = peer s := inUse
        have none := (ok.link s).length_eq
        rw [was, was] at none
        exact List.length_eq_zero_iff.mp none
      | client c =>
        obtain rfl : c = s := inUse
        rw [ok.rep, was]
        rfl
  · exact ok.quiet src dst inUse

/-- A client that has its answer has had its request handled. -/
theorem Sim.answered {ν : Buffered hash} (sim : Sim ν τ) (meets : Meets ν) (sends : Sends ν) (second : c = node1)
    (reading : ν.reading (.client c) = some src) (here : (ν.box src (.client c)).content = some m) :
    (ν.box (.client c) (.server c)).handled ≠ [] := by
  obtain ⟨idle, busy⟩ := sim.waits c (by simp [reading])
  obtain ⟨ph, ok⟩ := sim.ok
  obtain ⟨rest, queue, _⟩ := sim.head here (sim.answer_plain here)
  -- the one message of the request is the answer
  have inUse : used src (.client c) := by
    by_contra unused
    rw [ok.quiet _ _ unused] at queue
    cases queue
  have asked : τ.chan (.client c) (.server c) = [] := by
    cases src with
    | client d => exact inUse.elim
    | server s =>
      obtain rfl : c = s := inUse
      rw [ok.rep] at queue
      rw [ok.req]
      cases was : ph c <;> simp [was] at queue <;> rfl
  have unfinished : (ν.box (.client c) (.server c)).unfinished = [] := by
    rw [List.eq_nil_iff_forall_not_mem]
    intro x member
    by_cases kind : plain x = true
    · have inside : x ∈ (ν.box (.client c) (.server c)).unfinished.filter plain := List.mem_filter.mpr ⟨member, kind⟩
      rw [← sim.chan, asked] at inside
      cases inside
    · rw [Bool.not_eq_true] at kind
      rcases sends.own c x member kind with ⟨first, _⟩ | rfl
      · rw [second] at first
        cases first
      · have works := meets.busy c busy
        rw [(sends.exits c member).1] at works
        cases works
  have contents := (sim.boxes.ok (.client c) (.server c)).contents
  have pending : (ν.box (.client c) (.server c)).pending = [] := by
    have none : (ν.box (.client c) (.server c)).inUse = [] := List.map_eq_nil_iff.mp unfinished
    exact List.eq_nil_of_subset_nil (none ▸ Mailbox.pending_subset _)
  rw [pending, List.map_nil, List.append_nil] at contents
  rw [← contents]
  exact sends.asked c busy idle

/-- A server has taken MC_EXIT, or has left its loop. -/
def Leaving (ν : Buffered hash) (s : Side) : Prop :=
  (ν.srv s).e = false ∨ ∃ src, ν.reading (.server s) = some src ∧ (ν.box src (.server s)).content = some (.mcExit (.client s))

/-- What holds in every state of a run in which no server has failed. While a node reads a message its next look is into the queue after its
own. As long as server 1 has handled no request of client 3, this one is not through with its trace; and server 1 has handled none if it is
past the queue of client 2 while MC_BEGIN is there. -/
structure Course (σ : Running hash) : Prop where
  values : Values σ.nodes
  meets : Meets σ.nodes
  sends : Sends σ.nodes
  todo : Todo σ
  scans : ∀ n, σ.nodes.reading n ≠ none → σ.scan n = n.next
  works : (σ.nodes.box (.client node1) (.server node1)).handled = [] → (σ.nodes.stage node1).begun = false ∨
    σ.nodes.stage node1 = .bench ∧ (σ.todo node1 ≠ [] ∨ σ.nodes.client node1 ≠ .idle)
  ahead : (σ.nodes.box (.client node0) (.server node1)).queue ≠ [] → σ.scan (.server node1) ≠ .client node0 →
    (σ.nodes.box (.client node1) (.server node1)).handled = []
  leaves : ∀ s, Leaving σ.nodes s → σ.nodes.stage s = .done ∧ ∀ src, (σ.nodes.box src (.server s)).queue = []

/-- It holds at the start. -/
theorem Course.init (prog : Program) : Course (Running.init prog : Running hash) := by
  refine ⟨Values.init, Meets.init, Sends.init, Todo.init prog, ?_, ?_, ?_, ?_⟩
  · exact fun _ busy => absurd rfl busy
  · exact fun _ => Or.inl rfl
  · exact fun busy => absurd rfl busy
  · rintro s (ended | ⟨src, reading, _⟩)
    · cases ended
    · cases reading

/-- Only a step that takes a message sets a node to read one. -/
theorem Move.reading {b : BufAct} {ν ν' : Buffered hash} (move : Move ν b ν') (n : Node) :
    ν'.reading n = ν.reading n ∨ ν'.reading n = none ∨ ∃ src, b = .recv n src ∧ ν'.reading n = some src := by
  cases move with
  | advance rests next =>
    obtain ⟨stage, k, rfl, _⟩ := advance_cases next
    exact Or.inl rfl
  | @reply s =>
    by_cases same : n = .server s
    · simp [same]
    · simp [same]
  | @recv n' src =>
    by_cases same : n = n'
    · simp [same]
    · simp [same]
  | @done s =>
    by_cases same : n = .server s
    · simp [same]
    · simp [same]
  | @answer c =>
    by_cases same : n = .client c
    · simp [same]
    · simp [same]
  | _ => exact Or.inl rfl

/-- A node that reads a message begins behind itself again. -/
theorem Course.scans_step {a : RunAct} (course : Course σ) (goes : Goes prog σ a σ') (n : Node) (reading : σ'.nodes.reading n ≠ none) :
    σ'.scan n = n.next := by
  cases goes with
  | @recv n' nodes move =>
    change Function.update σ.scan n' n'.next n = n.next
    by_cases same : n = n'
    · subst same
      exact Function.update_self _ _ _
    · rw [Function.update_of_ne same]
      rcases move.reading n with still | none | ⟨src, is, _⟩
      · exact course.scans n (still ▸ reading)
      · exact absurd none reading
      · cases is
        exact absurd rfl same
  | @pass n' polls empty =>
    change Function.update σ.scan n' _ n = n.next
    have differ : n ≠ n' := by
      rintro rfl
      exact reading polls.2.1
    rw [Function.update_of_ne differ]
    exact course.scans n reading
  | call _ move | advance _ move | disconnect move | send move | handle move | answer move =>
    rcases move.reading n with still | none | ⟨src, is, _⟩
    · exact course.scans n (still ▸ reading)
    · exact absurd none reading
    · cases is

/-- Nothing was handled where nothing is. -/
theorem Carries.handled_nil {p p' : Mailbox McMsg} {sends takes reads : Prop} (carries : Carries p p' sends takes reads) (none : p'.handled = []) :
    p.handled = [] := by
  cases carries with
  | stays _ _ handled _ => rwa [← handled]
  | sends _ _ _ _ handled _ => rwa [← handled]
  | takes _ _ _ handled _ => rwa [← handled]
  | handles _ _ _ _ handled _ =>
    rw [handled] at none
    simp at none
  | ends _ _ _ _ handled _ =>
    rcases handled with same | more
    · rwa [← same]
    · rw [more] at none
      simp at none

/-- A step of the nodes that is none of client 3's calls, answers or program. -/
theorem Course.works_same (course : Course σ) {b : BufAct} (move : Move σ.nodes b σ'.nodes) (other : b ≠ .advance node1)
    (client : σ'.nodes.client node1 = σ.nodes.client node1) (todo : σ'.todo node1 = σ.todo node1)
    (before : (σ.nodes.stage node1).begun = false ∨ σ.nodes.stage node1 = .bench ∧ (σ.todo node1 ≠ [] ∨ σ.nodes.client node1 ≠ .idle)) :
    (σ'.nodes.stage node1).begun = false ∨ σ'.nodes.stage node1 = .bench ∧ (σ'.todo node1 ≠ [] ∨ σ'.nodes.client node1 ≠ .idle) := by
  rw [client, todo]
  rcases move.stage_cases node1 with same | ⟨_, ⟨is, _⟩ | ⟨_, dst, m, _, _, cause, _⟩⟩
  · rwa [same]
  · exact absurd is other
  · have loads := course.meets.loads
    rcases Stage.disconnect_eq cause with ⟨was, _⟩ | ⟨was, _⟩ | ⟨was, _⟩
    · rw [was] at loads
      cases loads
    · rw [was] at loads
      cases loads
    · rw [was] at before
      rcases before with early | ⟨bench, _⟩
      · cases early
      · cases bench

/-- **Client 3 is not through** while server 1 has handled none of its requests. -/
theorem Course.works_step {a : RunAct} (course : Course σ) (sim : Sim σ.nodes τ) (goes : Goes prog σ a σ')
    (none : (σ'.nodes.box (.client node1) (.server node1)).handled = []) : (σ'.nodes.stage node1).begun = false ∨
      σ'.nodes.stage node1 = .bench ∧ (σ'.todo node1 ≠ [] ∨ σ'.nodes.client node1 ≠ .idle) := by
  have before : (σ.nodes.stage node1).begun = false ∨
      σ.nodes.stage node1 = .bench ∧ (σ.todo node1 ≠ [] ∨ σ.nodes.client node1 ≠ .idle) := by
    refine course.works ?_
    by_cases counts : a.count = 0
    · cases goes with
      | pass => exact none
      | _ => cases counts
    · obtain ⟨b, move, _⟩ := goes.move counts
      exact (move.carries sim _ _).handled_nil none
  cases goes with
  | @call c op rest nodes next move =>
    cases move with
    | call rests allows =>
      by_cases same : node1 = c
      · subst same
        refine before.imp_right fun bench => ⟨bench.1, Or.inr ?_⟩
        change Function.update σ.nodes.client node1 op.pc node1 ≠ .idle
        rw [Function.update_self]
        cases op <;> simp [Op.pc]
      · exact course.works_same (.call rests allows) (by simp) (Function.update_of_ne same _ _) (Function.update_of_ne same _ _) before
  | @advance c nodes empty move =>
    by_cases same : node1 = c
    · subst same
      cases move with
      | advance rests next =>
        rcases before with early | ⟨_, left | calls⟩
        · rcases Stage.between course.meets.loads early with was | was
          · simp only [Buffered.advance, was, Option.some.injEq] at next
            refine Or.inl ?_
            rw [← next]
            simp [Stage.begun]
          · simp only [Buffered.advance, was, Option.ite_none_right_eq_some, Option.some.injEq] at next
            refine Or.inr ⟨?_, Or.inl ?_⟩
            · rw [← next.2]
              simp
            · change (if σ.nodes.stage node1 = .wait1 then Function.update σ.todo node1 ((prog.trace node1).map Line.op) else σ.todo) node1 ≠ []
              rw [if_pos was, Function.update_self]
              exact fun nothing => prog.works node1 (List.map_eq_nil_iff.mp nothing)
        · exact absurd empty left
        · exact absurd rests.2.1 calls
    · refine course.works_same move (by simpa using fun is => same is.symm) ?_ ?_ before
      · cases move with
        | advance rests next =>
          obtain ⟨stage, k, rfl, _⟩ := advance_cases next
          rfl
      · change (if σ.nodes.stage c = .wait1 then Function.update σ.todo c ((prog.trace c).map Line.op) else σ.todo) node1 = σ.todo node1
        split
        · exact Function.update_of_ne same _ _
        · rfl
  | @answer c nodes move =>
    cases move with
    | @answer c src m r reading here reply =>
      by_cases same : node1 = c
      · subst same
        have some := sim.answered course.meets course.sends rfl reading here
        exact absurd ((Move.answer reading here reply).carries sim _ _ |>.handled_nil none) some
      · exact course.works_same (.answer reading here reply) (by simp) (Function.update_of_ne same _ _) rfl before
    | fail reading here reply => exact course.works_same (.fail reading here reply) (by simp) rfl rfl before
  | pass => exact before
  | disconnect move =>
    refine course.works_same move (by simp) ?_ rfl before
    cases move
    rfl
  | send move =>
    refine course.works_same move (by simp) ?_ rfl before
    cases move <;> rfl
  | handle move =>
    refine course.works_same move (by simp) ?_ rfl before
    cases move <;> rfl
  | recv move =>
    refine course.works_same move (by simp) ?_ rfl before
    cases move
    rfl

/-- What a step that passes on, or does not take a message at a node, leaves of where this node looks. -/
theorem Goes.scan_cases {a : RunAct} (goes : Goes prog σ a σ') (n : Node) : σ'.scan n = σ.scan n ∨
    (a = .recv n ∧ σ'.scan n = n.next) ∨ (a = .pass n ∧ σ.nodes.polls n ∧ (σ.nodes.box (σ.scan n) n).queue = []) := by
  cases goes with
  | @recv n' nodes move =>
    by_cases same : n = n'
    · subst same
      exact Or.inr (Or.inl ⟨rfl, Function.update_self _ _ _⟩)
    · exact Or.inl (Function.update_of_ne same _ _)
  | @pass n' polls empty =>
    by_cases same : n = n'
    · subst same
      exact Or.inr (Or.inr ⟨rfl, polls, empty⟩)
    · exact Or.inl (Function.update_of_ne same _ _)
  | _ => exact Or.inl rfl

/-- **Server 1 has handled no request of client 3** if it is past the queue where MC_BEGIN is. -/
theorem Course.ahead_step {a : RunAct} (course : Course σ) (sim : Sim σ.nodes τ) (sim' : Sim σ'.nodes τ') (sends' : Sends σ'.nodes)
    (goes : Goes prog σ a σ') (begins : (σ'.nodes.box (.client node0) (.server node1)).queue ≠ [])
    (past : σ'.scan (.server node1) ≠ .client node0) : (σ'.nodes.box (.client node1) (.server node1)).handled = [] := by
  rcases goes.scan_cases (.server node1) with scan | ⟨_, next⟩ | ⟨rfl, _, empty⟩
  · rw [scan] at past
    by_cases counts : a.count = 0
    · cases goes with
      | pass => exact course.ahead begins past
      | _ => cases counts
    · obtain ⟨b, move, _⟩ := goes.move counts
      have before : (σ.nodes.box (.client node0) (.server node1)).queue ≠ [] →
          (σ'.nodes.box (.client node1) (.server node1)).handled = [] := by
        intro waits
        have none := course.ahead waits past
        -- a server that handles a message looks into the first queue next
        have idle : σ.nodes.reading (.server node1) = .none := by
          by_contra busy
          exact past (course.scans _ busy)
        cases move.carries sim (.client node1) (.server node1) with
        | stays _ _ handled _ | sends _ _ _ _ handled _ | takes _ _ _ handled _ => rw [handled, none]
        | handles reading | ends reading =>
          rw [reading] at idle
          cases idle
      cases move.carries sim (.client node0) (.server node1) with
      | stays _ queue _ _ | handles _ _ _ queue _ _ | ends _ _ _ queue _ _ =>
        exact before (queue ▸ begins)
      | takes _ _ queue _ _ =>
        refine before fun nothing => begins ?_
        rw [queue, nothing]
        rfl
      | @sends m i why drafted unfinished queue handled sent =>
        -- client 2 sends MC_BEGIN, and client 3 has sent nothing yet
        have now : σ.nodes.stage node0 = .begin1 := by
          rcases sim.drafts course.meets why.2 drafted with ⟨_, cause⟩ | ⟨same, _⟩
          · rcases Stage.disconnect_eq cause with ⟨_, toward, _⟩ | ⟨was, _⟩ | ⟨_, toward, _⟩
            · cases toward
            · exact was
            · cases toward
          · cases same
        have early : (σ'.nodes.stage node1).begun = false := by
          have kept : σ'.nodes.stage node1 = σ.nodes.stage node1 := by
            rcases move.stage_cases node1 with same | ⟨_, ⟨is, _⟩ | ⟨is, _⟩⟩
            · exact same
            · rw [why.1] at is
              cases is
            · rw [why.1] at is
              cases is
          rw [kept]
          by_contra begun
          rw [Bool.not_eq_false] at begun
          have met := course.meets.begun node1 node0 begun
          rw [now] at met
          cases met
        have contents := (sim'.boxes.ok (.client node1) (.server node1)).contents
        rw [sends'.silent early] at contents
        exact (List.append_eq_nil_iff.mp contents.symm).1
  · exact absurd next past
  · cases goes with
    | pass =>
      by_cases first : σ.scan (.server node1) = .client node0
      · rw [first] at empty
        exact absurd empty begins
      · exact course.ahead begins first

/-! ## Leaving -/

/-- Once a client has come to `rpc_sync` twice both wait for nothing. -/
theorem Meets.resting {ν : Buffered hash} (meets : Meets ν) (ended : (ν.stage c).ended = true) (d : Side) : ν.client d = .idle := by
  by_contra calls
  have busy := meets.busy d calls
  have met := meets.ended c d ended
  cases was : ν.stage d <;> simp [was, Stage.busy, Stage.met] at busy met

/-- What a node is reading stays as it is. -/
theorem Move.content {b : BufAct} {ν ν' : Buffered hash} (sim : Sim ν τ) (move : Move ν b ν') (reading : ν.reading dst = some src)
    (still : ν'.reading dst = some src) : (ν'.box src dst).content = (ν.box src dst).content := by
  cases move with
  | call rests allows => exact (write_box sim.boxes rests.2.2 (sim.client_room rests (Stage.controls_allows allows _)) _ src dst).2.1
  | disconnect rests cause => exact (write_box sim.boxes rests.2.2 (sim.client_room rests (Stage.controls_disconnect cause _)) _ src dst).2.1
  | advance rests next =>
    obtain ⟨stage, k, rfl, _⟩ := advance_cases next
    rfl
  | request =>
    simp only [setSending_box, onBox_box]
    split <;> rfl
  | control =>
    simp only [setSending_box, onBox_box]
    split <;> rfl
  | @reply s =>
    have differ : dst ≠ .server s := by
      rintro rfl
      simp at still
    simp only [setSending_box, setReading_box, onBox_box, differ, and_false, if_false]
    split <;> rfl
  | @recv n src' polls more =>
    have differ : dst ≠ n := by
      rintro rfl
      rw [polls.2.1] at reading
      cases reading
    simp [differ]
  | @done s =>
    have differ : dst ≠ .server s := by
      rintro rfl
      simp at still
    simp [differ]
  | @handle s src' dst' m m' st idle reading' apart here turn other =>
    have target : (ν.srv s).target s m = some dst' := by
      rw [← (eventLoop_target s turn).1]
      rfl
    obtain ⟨_, room⟩ := sim.server_room idle here target
    by_cases place : src = src' ∧ dst = .server s
    · obtain ⟨rfl, rfl⟩ := place
      simp [Buffered.write, apart]
      rfl
    · simpa [Buffered.write, place] using (write_box sim.boxes idle room m' src dst).2.1
  | @answer c =>
    have differ : dst ≠ .client c := by
      rintro rfl
      simp at still
    simp [differ]
  | fail => rfl

/-- MC_EXIT comes to a server from its own client. -/
theorem Sends.exit_of_mem {ν : Buffered hash} (sends : Sends ν) (sim : Sim ν τ) {id : Node}
    (member : some (.mcExit id) ∈ (ν.box src (.server s)).unfinished) : src = .client s ∧ id = .client s := by
  cases src with
  | server t => cases sim.servers t (.server s) _ member
  | client c =>
    rcases side_cases c s with rfl | rfl
    · rcases sends.own s _ member rfl with ⟨_, other⟩ | exit
      · cases other
      · cases exit
        exact ⟨rfl, rfl⟩
    · cases (sends.across c _ member).2

/-- A server leaves its loop only on MC_EXIT. -/
theorem eventLoop_e {st st' : Srv hash} {out : Option (Node × McMsg)} (turn : eventLoop s st m = .ok (st', out)) (ended : st'.e = false) :
    st.e = false ∨ ∃ id, m = .mcExit id := by
  cases m with
  | get sender key =>
    simp only [eventLoop, bind_eq_ok] at turn
    obtain ⟨_, _, turn⟩ := turn
    split at turn <;> cases turn <;> exact Or.inl ended
  | set sender key data =>
    simp only [eventLoop, bind_eq_ok, Prod.exists] at turn
    obtain ⟨_, _, r, log, _, _, _, turn⟩ := turn
    cases turn
    exact Or.inl ended
  | prepare sender key data =>
    simp only [eventLoop, bind_eq_ok, Prod.exists] at turn
    obtain ⟨_, _, r, log, _, _, _, turn⟩ := turn
    cases turn
    exact Or.inl ended
  | prepareOk sender key data =>
    simp only [eventLoop, bind_eq_ok] at turn
    obtain ⟨_, _, log, _, turn⟩ := turn
    cases turn
    exact Or.inl ended
  | commit sender key data =>
    simp only [eventLoop, bind_eq_ok] at turn
    obtain ⟨_, _, log, _, turn⟩ := turn
    cases turn
    exact Or.inl ended
  | commitOk sender =>
    simp only [eventLoop, bind_eq_ok] at turn
    obtain ⟨_, _, _, _, turn⟩ := turn
    cases turn
    exact Or.inl ended
  | mcExit id => exact Or.inr ⟨id, rfl⟩
  | _ =>
    cases turn
    exact Or.inl ended

/-- **A server that leaves** was leaving, or has just taken MC_EXIT. -/
theorem Move.leaving {b : BufAct} {ν ν' : Buffered hash} (sim : Sim ν τ) (sends : Sends ν) (move : Move ν b ν') (leaving : Leaving ν' s) :
    Leaving ν s ∨ ∃ src, b = .recv (.server s) src ∧ ν'.reading (.server s) = some src ∧
      (ν'.box src (.server s)).content = some (.mcExit (.client s)) := by
  rcases leaving with ended | ⟨src, reading, content⟩
  · left
    cases move with
    | advance rests next =>
      obtain ⟨stage, k, rfl, _⟩ := advance_cases next
      exact Or.inl ended
    | @done t src m st idle reading here turn control =>
      by_cases same : s = t
      · subst same
        rcases eventLoop_e turn (by simpa using ended) with before | ⟨id, rfl⟩
        · exact Or.inl before
        · have member : some (.mcExit id) ∈ (ν.box src (.server s)).unfinished := by
            rw [Mailbox.unfinished_cons here]
            exact List.mem_cons_self
          obtain ⟨rfl, rfl⟩ := sends.exit_of_mem sim member
          exact Or.inr ⟨_, reading, here⟩
      · exact Or.inl (by simpa [same] using ended)
    | @handle t src dst m m' st idle reading apart here turn other =>
      by_cases same : s = t
      · subst same
        rcases eventLoop_e turn (by simpa using ended) with before | ⟨id, rfl⟩
        · exact Or.inl before
        · cases other
      · exact Or.inl (by simpa [same] using ended)
    | _ => exact Or.inl ended
  · rcases move.reading (.server s) with same | none | ⟨src', rfl, now⟩
    · left
      rw [same] at reading
      refine Or.inr ⟨src, reading, ?_⟩
      rwa [← move.content sim reading (same.trans reading)]
    · rw [none] at reading
      cases reading
    · rw [now] at reading
      cases reading
      exact Or.inr ⟨src, rfl, now, content⟩

/-- **Nobody sends** to a server that leaves. -/
theorem Course.leaves_kept (course : Course σ) (sim : Sim σ.nodes τ) {b : BufAct} {nodes : Buffered hash} (move : Move σ.nodes b nodes)
    (before : Leaving σ.nodes s) : nodes.stage s = .done ∧ ∀ src, (nodes.box src (.server s)).queue = [] := by
  obtain ⟨done, empty⟩ := course.leaves s before
  have ended : (σ.nodes.stage s).ended = true := by
    rw [done]
    rfl
  refine ⟨move.done_stays done, fun src => ?_⟩
  cases move.carries sim src (.server s) with
  | stays _ queue _ _ | handles _ _ _ queue _ _ | ends _ _ _ queue _ _ => rw [queue, empty]
  | takes _ _ queue _ _ => rw [queue, empty, List.tail_nil]
  | @sends m i why drafted unfinished queue handled sent =>
    exfalso
    cases src with
    | client c =>
      have met := course.meets.ended s c ended
      rcases sim.drafts course.meets why.2 drafted with ⟨_, cause⟩ | ⟨_, _, calls, _⟩
      · rcases Stage.disconnect_eq cause with ⟨was, _⟩ | ⟨was, _⟩ | ⟨was, toward, _⟩
        · rw [was] at met
          cases met
        · rw [was] at met
          cases met
        · cases toward
          rw [was] at done
          cases done
      · exact calls (course.meets.resting ended c)
    | server t =>
      obtain ⟨src', x, y, reading, here, other, _⟩ := sim.server t _ why.2
      obtain ⟨rest, queue', _⟩ := sim.head here other
      rw [sim.quiet (course.meets.resting ended)] at queue'
      cases queue'

/-- **When a server takes MC_EXIT** nothing else is before it. -/
theorem Course.leaves_taken (course : Course σ) (sim : Sim σ.nodes τ) {nodes : Buffered hash}
    (move : Move σ.nodes (.recv (.server s) (σ.scan (.server s))) nodes)
    (content : (nodes.box (σ.scan (.server s)) (.server s)).content = some (.mcExit (.client s))) :
    nodes.stage s = .done ∧ ∀ src, (nodes.box src (.server s)).queue = [] := by
  generalize at_ : σ.scan (.server s) = src at move content
  cases move with
  | recv polls more =>
    have free := sim.boxes.taken_none polls.2.1
    have split : (σ.nodes.box src (.server s)).unfinished =
        some (.mcExit (.client s)) :: (σ.nodes.box src (.server s)).recv.finish.unfinished := by
      rw [← Mailbox.recv_unfinished (free src)]
      exact Mailbox.unfinished_cons (by simpa using content)
    have member : some (.mcExit (.client s)) ∈ (σ.nodes.box src (.server s)).unfinished := by
      rw [split]
      exact List.mem_cons_self
    obtain ⟨rfl, _⟩ := course.sends.exit_of_mem sim member
    obtain ⟨done, front, last, fresh⟩ := course.sends.exits s member
    have ended : (σ.nodes.stage s).ended = true := by
      rw [done]
      rfl
    refine ⟨done, fun src => ?_⟩
    by_cases own : src = .client s
    · subst own
      have rest : (σ.nodes.box (.client s) (.server s)).recv.finish.unfinished = [] := by
        rw [split] at last
        cases front with
        | nil => exact (List.cons.inj last).2
        | cons y front =>
          rw [List.cons_append, List.cons.injEq] at last
          rw [← last.1] at fresh
          exact absurd List.mem_cons_self fresh
      simpa [Mailbox.unfinished, Mailbox.inUse, Mailbox.finish] using rest
    · have same : ((((σ.nodes.onBox (.client s) (.server s) Mailbox.recv).setReading (.server s) (some (.client s))).box src (.server s))) =
          σ.nodes.box src (.server s) := by simp [own]
      rw [same]
      have empty : (σ.nodes.box src (.server s)).unfinished = [] → (σ.nodes.box src (.server s)).queue = [] := by
        intro none
        have short := (σ.nodes.box src (.server s)).queue_length_le
        rw [none] at short
        exact List.length_eq_zero_iff.mp (Nat.le_zero.mp short)
      cases src with
      | server t =>
        apply empty
        have chan := sim.chan (.server t) (.server s)
        rw [sim.quiet (course.meets.resting ended), List.filter_eq_self.mpr (sim.servers t (.server s))] at chan
        exact chan.symm
      | client c =>
        have other : c = peer s := by
          rcases side_cases s c with rfl | rfl
          · exact absurd rfl own
          · rfl
        subst other
        obtain rfl | rfl := side_total s
        · -- only client 2 sends to the other's server
          apply empty
          rw [List.eq_nil_iff_forall_not_mem]
          intro x inside
          cases (course.sends.across (peer node0) x (by simpa using inside)).1
        · by_contra waits
          have none := course.ahead waits (by rw [at_]; simp)
          rcases course.works none with early | ⟨bench, _⟩
          · rw [done] at early
            cases early
          · rw [done] at bench
            cases bench

/-- **Each step** in which no server fails keeps the course. -/
theorem Course.step {a : RunAct} (course : Course σ) (sim : Sim σ.nodes τ) (sim' : Sim σ'.nodes τ') (goes : Goes prog σ a σ') : Course σ' := by
  have sends : Sends σ'.nodes := by
    by_cases counts : a.count = 0
    · cases goes with
      | pass => exact course.sends
      | _ => cases counts
    · obtain ⟨b, move, _⟩ := goes.move counts
      exact course.sends.step sim course.meets move
  have leaves : ∀ s, Leaving σ'.nodes s → σ'.nodes.stage s = .done ∧ ∀ src, (σ'.nodes.box src (.server s)).queue = [] := by
    intro s leaving
    have kept : ∀ {b : BufAct}, Move σ.nodes b σ'.nodes → (∀ src, b ≠ .recv (.server s) src) →
        σ'.nodes.stage s = .done ∧ ∀ src, (σ'.nodes.box src (.server s)).queue = [] := by
      intro b move other
      rcases move.leaving sim course.sends leaving with before | ⟨src, is, _⟩
      · exact course.leaves_kept sim move before
      · exact absurd is (other src)
    cases goes with
    | pass => exact course.leaves s leaving
    | @recv n nodes move =>
      rcases move.leaving sim course.sends leaving with before | ⟨src, is, _, content⟩
      · exact course.leaves_kept sim move before
      · cases is
        exact course.leaves_taken sim move content
    | call _ move | advance _ move | disconnect move | send move | handle move | answer move => exact kept move fun src => by simp
  have rest : Values σ'.nodes ∧ Meets σ'.nodes := by
    by_cases counts : a.count = 0
    · cases goes with
      | pass => exact ⟨course.values, course.meets⟩
      | _ => cases counts
    · obtain ⟨b, move, calls⟩ := goes.move counts
      exact ⟨course.values.step sim move fun c op is => course.todo.dollars c op (calls c op is), course.meets.step move⟩
  exact ⟨rest.1, rest.2, sends, course.todo.step goes, course.scans_step goes, course.works_step sim goes,
    course.ahead_step sim sim' sends goes, leaves⟩

end

end BiProject.TwoPc
