import BiProject.TwoPc.Scan
import Mathlib.Algebra.BigOperators.Group.Finset.Basic
import Mathlib.Data.Fintype.Prod
import Mathlib.Logic.Relation

/-!
# Every message is handled

Each step that counts uses up some of what the programs and the messages under way can still bring about, so a run has no more steps than
there is of it at the start. Where no step but looking into empty queues is left, no node is in the middle of anything, and nothing is in a
queue: a node that still receives would find it, and a server that has left its loop has nothing before it.
-/

namespace BiProject.TwoPc
set_option autoImplicit false
open BiProject.McServer BiProject.Lib

section
variable {hash : List UInt8 → Nat} {prog : Program} {σ σ' : Running hash} {τ τ' : System hash} {n src dst : Node} {s c d : Side} {m m' : McMsg}
  {p : Mailbox McMsg}

/-! ## What is left of a run -/

/-- How many steps a message may still bring about once it is taken, with what is written for it, -/
def McMsg.left : McMsg → Nat
  | .mcBegin _ | .mcExit _ => 1
  | .getOk _ _ | .getFail _ | .setOk _ => 5
  | .get _ _ | .commitOk _ => 8
  | .commit _ _ _ => 11
  | .prepareOk _ _ _ => 14
  | .prepare _ _ _ => 17
  | .set _ _ _ => 20

/-- what a buffer has, -/
def weight : Option McMsg → Nat
  | none => 0
  | some m => m.left

/-- those of a pair, -/
def boxLeft (p : Mailbox McMsg) : Nat :=
  (p.draft.map fun m => m.left + 2).getD 0 + (p.queue.map fun i => weight (p.buf i) + 1).sum + if p.seen then 0 else weight p.content

/-- a client's program, -/
def Stage.left : Stage → Nat
  | .preload => 9
  | .begin0 => 8
  | .begin1 => 7
  | .sync1 => 6
  | .wait1 => 5
  | .bench => 4
  | .sync2 => 3
  | .wait2 => 2
  | .exit => 1
  | .done => 0

/-- with the lines of the trace that it has not come to. -/
def Stage.later (trace : List Line) (stage : Stage) : Nat := if stage.begun then 0 else trace.length

/-- For a client: its calls, its lines, its stages, and whether it may begin something. -/
def clientLeft (prog : Program) (σ : Running hash) (c : Side) : Nat :=
  23 * (σ.todo c).length + 23 * (σ.nodes.stage c).later (prog.trace c) + 9 * (σ.nodes.stage c).left +
    if σ.nodes.client c = .idle ∧ σ.nodes.sending (.client c) = none then 4 else 0

instance : Fintype Node := ⟨{.server node0, .server node1, .client node0, .client node1}, by
  intro n
  cases n with
  | server s => obtain rfl | rfl := side_total s <;> simp
  | client c => obtain rfl | rfl := side_total c <;> simp⟩

/-- All pairs, -/
def boxesLeft (box : Node → Node → Mailbox McMsg) : Nat := ∑ x : Node × Node, boxLeft (box x.1 x.2)

/-- and the whole. -/
def Running.left (prog : Program) (σ : Running hash) : Nat := ∑ c, clientLeft prog σ c + boxesLeft σ.nodes.box

/-- A sum in which one term changes. -/
theorem sum_change {ι : Type} [Fintype ι] [DecidableEq ι] {f g : ι → Nat} (i : ι) (others : ∀ j, j ≠ i → g j = f j) :
    ∑ j, g j + f i = ∑ j, f j + g i := by
  have rest : ∑ j ∈ Finset.univ.erase i, g j = ∑ j ∈ Finset.univ.erase i, f j :=
    Finset.sum_congr rfl fun j inside => others j (Finset.ne_of_mem_erase inside)
  have left := Finset.add_sum_erase Finset.univ f (Finset.mem_univ i)
  have right := Finset.add_sum_erase Finset.univ g (Finset.mem_univ i)
  omega

/-- What is left when one pair changes. -/
theorem onBox_left (ν : Buffered hash) (src dst : Node) (f : Mailbox McMsg → Mailbox McMsg) :
    boxesLeft (ν.onBox src dst f).box + boxLeft (ν.box src dst) = boxesLeft ν.box + boxLeft (f (ν.box src dst)) := by
  have change := sum_change (f := fun x : Node × Node => boxLeft (ν.box x.1 x.2)) (g := fun x => boxLeft ((ν.onBox src dst f).box x.1 x.2))
    (src, dst) fun x other => by
      have differ : ¬ (x.1 = src ∧ x.2 = dst) := fun same => other (Prod.ext same.1 same.2)
      simp [differ]
  simpa [boxesLeft] using change

/-! ## The steps of a pair -/

/-- A message is written, -/
theorem write_left (ok : Mailbox.Ok 2 p) (room : p.flight.length < 2) (ready : p.written = none) (m : McMsg) :
    boxLeft (p.write 2 m) = boxLeft p + m.left + 2 := by
  have queue : p.queue.map (fun i => weight ((p.write 2 m).buf i) + 1) = p.queue.map fun i => weight (p.buf i) + 1 :=
    List.map_congr_left fun i inside => by rw [ok.write_buf room m (List.mem_append_right _ inside)]
  have none : p.draft = none := by simp [Mailbox.draft, ready]
  unfold boxLeft
  rw [Mailbox.write_draft, ok.write_content room m, none]
  change _ + (p.queue.map fun i => weight ((p.write 2 m).buf i) + 1).sum + (if p.seen then 0 else _) = _
  rw [queue]
  simp only [Option.map_some, Option.getD_some, Option.map_none, Option.getD_none]
  omega

/-- sent, -/
theorem send_left (drafted : p.draft = some m) : boxLeft p.send + 1 = boxLeft p := by
  obtain ⟨i, written, here⟩ := Option.bind_eq_some_iff.mp drafted
  have sent : p.send.draft = none := rfl
  have content : p.send.content = p.content := rfl
  unfold boxLeft
  rw [sent, drafted, content]
  simp only [Mailbox.send, written, here, Option.toList_some, List.map_append, List.sum_append, List.map_cons, List.map_nil, List.sum_cons,
    List.sum_nil, weight, Option.map_some, Option.getD_some, Option.map_none, Option.getD_none]
  omega

/-- taken, -/
theorem recv_left (free : p.taken = none) (more : p.queue ≠ []) : boxLeft p.recv + 1 = boxLeft p := by
  obtain ⟨i, rest, queue⟩ := List.exists_cons_of_ne_nil more
  have before : p.content = none := by simp [Mailbox.content, free]
  have after : p.recv.content = p.buf i := by simp [Mailbox.content, Mailbox.recv, queue]
  have draft : p.recv.draft = p.draft := rfl
  unfold boxLeft
  rw [before, after, draft]
  simp only [Mailbox.recv, queue, List.tail_cons, List.map_cons, List.sum_cons, weight, ite_self]
  simp
  omega

/-- read, -/
theorem read_left (unseen : p.seen = false) : boxLeft p.read + weight p.content = boxLeft p := by
  have content : p.read.content = p.content := rfl
  have draft : p.read.draft = p.draft := rfl
  unfold boxLeft
  rw [content, draft, unseen]
  simp [Mailbox.read]

/-- and finished, -/
theorem finish_left (seen : p.seen = true) : boxLeft p.finish = boxLeft p := by
  have draft : p.finish.draft = p.draft := rfl
  unfold boxLeft
  rw [draft, seen]
  simp [Mailbox.finish, Mailbox.content, weight]

/-- or both at once. -/
theorem read_finish_left (unseen : p.seen = false) : boxLeft p.read.finish + weight p.content = boxLeft p := by
  rw [finish_left rfl, read_left unseen]

/-! ## The steps of a run -/

/-- What a message brings about is less than it. -/
theorem eventLoop_left {st st' : Srv hash} (turn : eventLoop s st m = .ok (st', some (dst, m'))) : m'.left + 3 ≤ m.left := by
  cases m with
  | get sender key =>
    simp only [eventLoop, bind_eq_ok] at turn
    obtain ⟨_, _, turn⟩ := turn
    split at turn <;> cases turn <;> simp [McMsg.left]
  | set sender key data =>
    simp only [eventLoop, bind_eq_ok, Prod.exists] at turn
    obtain ⟨_, _, r, log, _, _, _, turn⟩ := turn
    cases turn
    simp [McMsg.left]
  | prepare sender key data =>
    simp only [eventLoop, bind_eq_ok, Prod.exists] at turn
    obtain ⟨_, _, r, log, _, _, _, turn⟩ := turn
    cases turn
    simp [McMsg.left]
  | prepareOk sender key data =>
    simp only [eventLoop, bind_eq_ok] at turn
    obtain ⟨_, _, log, _, turn⟩ := turn
    cases turn
    simp [McMsg.left]
  | commit sender key data =>
    simp only [eventLoop, bind_eq_ok] at turn
    obtain ⟨_, _, log, _, turn⟩ := turn
    cases turn
    simp [McMsg.left]
  | commitOk sender =>
    simp only [eventLoop, bind_eq_ok] at turn
    obtain ⟨_, _, _, _, turn⟩ := turn
    cases turn
    simp [McMsg.left]
  | _ => cases turn

/-- A client's answer brings about nothing more. -/
theorem clientReply_left {pc : Pc} {r : Res} (reply : clientReply c pc m = .ok r) : m.left = 5 := by
  unfold clientReply at reply
  cases pc <;> cases m <;> simp [bind_eq_ok, McMsg.left] at reply ⊢

/-- A step leaves of the clients' programs what it does not touch. -/
theorem clientLeft_eq (todo : σ'.todo d = σ.todo d) (stage : σ'.nodes.stage d = σ.nodes.stage d) (client : σ'.nodes.client d = σ.nodes.client d)
    (sending : σ'.nodes.sending (.client d) = σ.nodes.sending (.client d)) : clientLeft prog σ' d = clientLeft prog σ d := by
  rw [clientLeft, clientLeft, todo, stage, client, sending]

/-- A step in which one client goes on. -/
theorem left_of_client (c : Side) (others : ∀ d, d ≠ c → clientLeft prog σ' d = clientLeft prog σ d) {k : Nat}
    (less : clientLeft prog σ' c + boxesLeft σ'.nodes.box + k ≤ clientLeft prog σ c + boxesLeft σ.nodes.box) :
    σ'.left prog + k ≤ σ.left prog := by
  have change := sum_change (f := clientLeft prog σ) (g := clientLeft prog σ') c others
  unfold Running.left
  omega

/-- A step that leaves the clients as they are. -/
theorem left_of_server {box : Node → Node → Mailbox McMsg} (client : σ'.nodes.client = σ.nodes.client) (stage : σ'.nodes.stage = σ.nodes.stage)
    (sending : ∀ d, σ'.nodes.sending (.client d) = σ.nodes.sending (.client d)) (todo : σ'.todo = σ.todo) (boxes : σ'.nodes.box = box)
    (less : boxesLeft box + 1 ≤ boxesLeft σ.nodes.box) : σ'.left prog + 1 ≤ σ.left prog := by
  have clients : ∑ d, clientLeft prog σ' d = ∑ d, clientLeft prog σ d :=
    Finset.sum_congr rfl fun d _ => by rw [clientLeft, clientLeft, todo, stage, client, sending]
  rw [Running.left, Running.left, boxes, clients]
  omega

/-- What a written message adds. -/
theorem write_boxes {ν : Buffered hash} (boxes : Boxes ν) (idle : ν.sending n = none) (room : (ν.box n dst).unfinished.length ≤ 1) (m : McMsg) :
    boxesLeft (ν.write n dst m).box = boxesLeft ν.box + m.left + 2 := by
  have short : (ν.box n dst).flight.length < 2 := by
    rw [boxes.flight_eq idle]
    omega
  have box := onBox_left ν n dst (Mailbox.write 2 m)
  rw [write_left (boxes.ok n dst) short (boxes.written_none idle dst)] at box
  change boxesLeft (ν.onBox n dst (Mailbox.write 2 m)).box = _
  omega

/-- What sending it takes off. -/
theorem send_boxes {ν : Buffered hash} (drafted : (ν.box n dst).draft = some m) :
    boxesLeft (ν.onBox n dst Mailbox.send).box + 1 = boxesLeft ν.box := by
  have box := onBox_left ν n dst Mailbox.send
  have less := send_left drafted
  omega

/-- A client goes on in its program. -/
theorem advance_left {ν : Buffered hash} (next : ν.advance c = some σ'.nodes) (none : σ.todo c = []) (nodes : σ.nodes = ν)
    (todo : σ'.todo = if ν.stage c = .wait1 then Function.update σ.todo c ((prog.trace c).map Line.op) else σ.todo) :
    σ'.left prog + 1 ≤ σ.left prog := by
  subst nodes
  obtain ⟨stage, k, same, _⟩ := advance_cases next
  refine left_of_client c (fun d other => ?_) ?_
  · refine clientLeft_eq ?_ ?_ ?_ ?_
    · rw [todo]
      split
      · exact Function.update_of_ne other _ _
      · rfl
    · rw [same]
      exact Function.update_of_ne other _ _
    · rw [same]
    · rw [same]
  · have box : σ'.nodes.box = σ.nodes.box := by rw [same]
    have client : σ'.nodes.client = σ.nodes.client := by rw [same]
    have sending : σ'.nodes.sending = σ.nodes.sending := by rw [same]
    rw [box]
    refine Nat.le_trans (Nat.le_of_eq (Nat.add_right_comm _ _ _)) (Nat.add_le_add_right ?_ _)
    rw [clientLeft, clientLeft, client, sending, todo]
    unfold Buffered.advance at next
    cases was : σ.nodes.stage c <;> simp only [was, reduceCtorEq, Option.some.injEq, Option.ite_none_right_eq_some] at next
    case wait1 =>
      rw [← next.2]
      simp only [none, Stage.left, Stage.later, Stage.begun, ↓reduceIte, Function.update_self, List.length_map, List.length_nil,
        Bool.false_eq_true]
      omega
    case wait2 =>
      rw [← next.2]
      simp only [none, Stage.left, Stage.later, Stage.begun, ↓reduceIte, reduceCtorEq, List.length_nil, Function.update_self]
      omega
    all_goals
      rw [← next]
      simp only [none, Stage.left, Stage.later, Stage.begun, ↓reduceIte, reduceCtorEq, List.length_nil, Function.update_self,
        Bool.false_eq_true]
      omega

/-- A client calls, -/
theorem call_left (sim : Sim σ.nodes τ) {op : Op} {rest : List Op} (next : σ.todo c = op :: rest) (rests : σ.nodes.rests c)
    (allows : (σ.nodes.stage c).allows op = true) (nodes : σ'.nodes =
      { σ.nodes.write (.client c) (.server c) (op.request c) with client := Function.update σ.nodes.client c op.pc })
    (todo : σ'.todo = Function.update σ.todo c rest) : σ'.left prog + 1 ≤ σ.left prog := by
  refine left_of_client c (fun d other => ?_) ?_
  · refine clientLeft_eq ?_ ?_ ?_ ?_
    · simp [todo, other]
    · simp [nodes]
    · simp [nodes, other]
    · simp [nodes, other]
  · have box : boxesLeft σ'.nodes.box = boxesLeft σ.nodes.box + (op.request c).left + 2 := by
      rw [nodes]
      exact write_boxes sim.boxes rests.2.2 (sim.client_room rests (Stage.controls_allows allows _)) (op.request c)
    have most : (op.request c).left ≤ 20 := by
      cases op <;> simp [Op.request, McMsg.left]
    have begins : ¬ op.pc = .idle := by
      cases op <;> simp [Op.pc]
    rw [box]
    simp only [clientLeft, nodes, todo, Function.update_self, next, List.length_cons, begins, false_and, if_false, rests.2.1, rests.2.2,
      and_self, if_true, write_stage]
    omega

/-- writes a message of `disconnect_mc_server`, -/
theorem disconnect_left (sim : Sim σ.nodes τ) (rests : σ.nodes.rests c) (cause : (σ.nodes.stage c).disconnect c = some (dst, m))
    (nodes : σ'.nodes = σ.nodes.write (.client c) dst m) (todo : σ'.todo = σ.todo) : σ'.left prog + 1 ≤ σ.left prog := by
  refine left_of_client c (fun d other => ?_) ?_
  · refine clientLeft_eq (by rw [todo]) ?_ ?_ ?_
    · simp [nodes]
    · simp [nodes]
    · simp [nodes, other]
  · have room := sim.client_room rests (Stage.controls_disconnect cause dst)
    have box := write_boxes sim.boxes rests.2.2 room m
    have least : m.left = 1 := by
      rcases Stage.disconnect_eq cause with ⟨_, _, rfl⟩ | ⟨_, _, rfl⟩ | ⟨_, _, rfl⟩ <;> rfl
    rw [nodes, box]
    simp only [clientLeft, nodes, todo, rests.2.1, rests.2.2, and_self, if_true, write_stage, write_client, write_sending, Function.update_self,
      reduceCtorEq, and_false, if_false]
    omega

/-- sends it, -/
theorem control_left (cause : (σ.nodes.stage c).disconnect c = some (dst, m))
    (drafted : (σ.nodes.box (.client c) dst).draft = some m) (nodes : σ'.nodes =
      { (σ.nodes.onBox (.client c) dst Mailbox.send).setSending (.client c) none with
        stage := Function.update σ.nodes.stage c (σ.nodes.stage c).next })
    (todo : σ'.todo = σ.todo) : σ'.left prog + 1 ≤ σ.left prog := by
  refine left_of_client c (fun d other => ?_) ?_
  · refine clientLeft_eq (by rw [todo]) ?_ ?_ ?_
    · simp [nodes, other]
    · simp [nodes]
    · simp [nodes, other]
  · have box : boxesLeft σ'.nodes.box + 1 = boxesLeft σ.nodes.box := by
      rw [nodes]
      exact send_boxes drafted
    have later : (σ.nodes.stage c).next.begun = (σ.nodes.stage c).begun := (Stage.next_met cause).2.1
    have fewer : (σ.nodes.stage c).next.left + 1 = (σ.nodes.stage c).left := by
      rcases Stage.disconnect_eq cause with ⟨was, _⟩ | ⟨was, _⟩ | ⟨was, _⟩ <;> rw [was] <;> rfl
    have stage : σ'.nodes.stage c = (σ.nodes.stage c).next := by simp [nodes]
    have rest : (if σ'.nodes.client c = .idle ∧ σ'.nodes.sending (.client c) = none then 4 else 0) ≤ 4 := by
      split <;> omega
    simp only [clientLeft, Stage.later, stage, later, todo] at rest ⊢
    omega

/-- or sends a request. -/
theorem request_left {op : Op} (pc : σ.nodes.client c = op.pc) (drafted : (σ.nodes.box (.client c) (.server c)).draft = some (op.request c))
    (nodes : σ'.nodes = (σ.nodes.onBox (.client c) (.server c) Mailbox.send).setSending (.client c) none) (todo : σ'.todo = σ.todo) :
    σ'.left prog + 1 ≤ σ.left prog := by
  have calls : ¬ σ.nodes.client c = .idle := by
    rw [pc]
    cases op <;> simp [Op.pc]
  have box : boxesLeft σ'.nodes.box + 1 = boxesLeft σ.nodes.box := by
    rw [nodes]
    exact send_boxes drafted
  refine left_of_client c (fun d other => ?_) ?_
  · refine clientLeft_eq (by rw [todo]) ?_ ?_ ?_
    · simp [nodes]
    · simp [nodes]
    · simp [nodes, other]
  · have same : clientLeft prog σ' c = clientLeft prog σ c := by
      simp [clientLeft, nodes, todo, calls]
    omega

/-- A node takes a message. -/
theorem taken_left {ν : Buffered hash} (sim : Sim ν τ) (polls : ν.polls n) (more : (ν.box src n).queue ≠ []) :
    boxesLeft (ν.onBox src n Mailbox.recv).box + 1 ≤ boxesLeft ν.box := by
  have box := onBox_left ν src n Mailbox.recv
  have less := recv_left (sim.boxes.taken_none polls.2.1 src) more
  omega

/-- A server handles a message and writes one, -/
theorem handle_left {ν : Buffered hash} (sim : Sim ν τ) {st : Srv hash} (idle : ν.sending (.server s) = none) (apart : src ≠ .server s)
    (here : (ν.box src (.server s)).content = some m) (turn : eventLoop s (ν.srv s) m = .ok (st, some (dst, m'))) :
    boxesLeft ((ν.onBox src (.server s) Mailbox.read).write (.server s) dst m').box + 1 ≤ boxesLeft ν.box := by
  have target : (ν.srv s).target s m = some dst := by
    rw [← (eventLoop_target s turn).1]
    rfl
  obtain ⟨_, room⟩ := sim.server_room idle here target
  have short : (ν.box (.server s) dst).flight.length < 2 := by
    rw [sim.boxes.flight_eq idle]
    omega
  have read := onBox_left ν src (.server s) Mailbox.read
  have used := read_left (sim.boxes.unseen idle src)
  have same : (ν.onBox src (.server s) Mailbox.read).box (.server s) dst = ν.box (.server s) dst := by
    simp [Ne.symm apart]
  have written := onBox_left (ν.onBox src (.server s) Mailbox.read) (.server s) dst (Mailbox.write 2 m')
  rw [same, write_left (sim.boxes.ok _ _) short (sim.boxes.written_none idle dst)] at written
  have less := eventLoop_left turn
  rw [here] at used
  change boxesLeft ((ν.onBox src (.server s) Mailbox.read).onBox (.server s) dst (Mailbox.write 2 m')).box + 1 ≤ _
  change _ + m.left = _ at used
  omega

/-- and sends it. -/
theorem reply_left {ν : Buffered hash} (sim : Sim ν τ) (sending : ν.sending (.server s) = some dst) (reading : ν.reading (.server s) = some src)
    (apart : src ≠ .server s) (drafted : (ν.box (.server s) dst).draft = some m) :
    boxesLeft ((ν.onBox (.server s) dst Mailbox.send).onBox src (.server s) Mailbox.finish).box + 1 ≤ boxesLeft ν.box := by
  have sent := send_boxes drafted
  have finished := onBox_left (ν.onBox (.server s) dst Mailbox.send) src (.server s) Mailbox.finish
  have seen : ((ν.onBox (.server s) dst Mailbox.send).box src (.server s)).seen = true := by
    have before := (sim.boxes.seen src (.server s)).mpr ⟨reading, by simp [sending]⟩
    simpa [apart] using before
  rw [finish_left seen] at finished
  omega

/-- A node handles a message and writes none. -/
theorem ends_left {ν : Buffered hash} (sim : Sim ν τ) (idle : ν.sending n = none) (here : (ν.box src n).content = some m) :
    boxesLeft (ν.onBox src n fun p => p.read.finish).box + m.left = boxesLeft ν.box := by
  have box := onBox_left ν src n fun p => p.read.finish
  have less := read_finish_left (sim.boxes.unseen idle src)
  rw [here] at less
  change _ + m.left = _ at less
  omega

/-- A client has its answer. -/
theorem answer_left (sim : Sim σ.nodes τ) {r : Res} (reading : σ.nodes.reading (.client c) = some src)
    (here : (σ.nodes.box src (.client c)).content = some m) (reply : clientReply c (σ.nodes.client c) m = .ok r)
    (nodes : σ'.nodes = { (σ.nodes.onBox src (.client c) fun p => p.read.finish).setReading (.client c) none with
      client := Function.update σ.nodes.client c .idle }) (todo : σ'.todo = σ.todo) : σ'.left prog + 1 ≤ σ.left prog := by
  obtain ⟨idle, busy⟩ := sim.waits c (by simp [reading])
  refine left_of_client c (fun d other => ?_) ?_
  · refine clientLeft_eq (by rw [todo]) ?_ ?_ ?_
    · simp [nodes]
    · simp [nodes, other]
    · simp [nodes]
  · have box : boxesLeft σ'.nodes.box + m.left = boxesLeft σ.nodes.box := by
      rw [nodes]
      exact ends_left sim idle here
    have five := clientReply_left reply
    have stage : σ'.nodes.stage = σ.nodes.stage := by simp [nodes]
    have rest : (if σ'.nodes.client c = .idle ∧ σ'.nodes.sending (.client c) = none then 4 else 0) ≤ 4 := by
      split <;> omega
    simp only [clientLeft, stage, todo] at rest ⊢
    omega

/-- **Each step that counts** brings down what is left. -/
theorem Goes.left {a : RunAct} (course : Course σ) (sim : Sim σ.nodes τ) (goes : Goes prog σ a σ') : σ'.left prog + a.count ≤ σ.left prog := by
  cases goes with
  | call next move =>
    cases move with
    | call rests allows => exact call_left sim next rests allows rfl rfl
  | advance none move =>
    cases move with
    | advance rests stepped => exact advance_left stepped none rfl rfl
  | recv move =>
    cases move with
    | recv polls more => exact left_of_server rfl rfl (fun _ => rfl) rfl rfl (taken_left sim polls more)
  | pass polls empty => exact Nat.le_of_eq (Nat.add_zero _)
  | disconnect move =>
    cases move with
    | disconnect rests cause => exact disconnect_left sim rests cause rfl rfl
  | send move =>
    cases move with
    | request sending pc drafted => exact request_left pc drafted rfl rfl
    | control sending idle cause drafted => exact control_left cause drafted rfl rfl
    | reply sending reading apart here other drafted =>
      exact left_of_server rfl rfl (fun d => by simp) rfl rfl (reply_left sim sending reading apart drafted)
  | handle move =>
    cases move with
    | @done s src m st idle reading here turn control =>
      have box := ends_left sim idle here
      have least : 1 ≤ m.left := by
        cases m <;> simp [McMsg.left]
      exact left_of_server rfl rfl (fun _ => rfl) rfl rfl (Nat.le_trans (Nat.add_le_add_left least _) (Nat.le_of_eq box))
    | handle idle reading apart here turn =>
      exact left_of_server rfl rfl (fun d => by simp [Buffered.write]) rfl rfl (handle_left sim idle apart here turn)
  | answer move =>
    cases move with
    | answer reading here reply => exact answer_left sim reading here reply rfl rfl
    | fail reading here reply =>
      obtain ⟨r, done⟩ := sim.reply_ok course.values reading here
      rw [done] at reply
      cases reply

/-- The servers that have not failed had not failed before. -/
theorem Running.alive_before {a : RunAct} (step : σ.step prog a = some σ') (alive : ∀ s, σ'.nodes.failed (.server s) = none) (s : Side) :
    σ.nodes.failed (.server s) = none := by
  rcases Running.step_nodes step with ⟨b, made⟩ | ⟨_, same⟩
  · exact buffered_failed made (alive s)
  · rw [← same]
    exact alive s

/-- **A run keeps its course** and has no more steps than there were left at the start. -/
theorem Running.Run.course {k : Nat} (run : Running.Run prog k σ) (alive : ∀ s, σ.nodes.failed (.server s) = none) :
    Course σ ∧ σ.left prog + k ≤ (Running.init prog : Running hash).left prog := by
  induction run with
  | init => exact ⟨Course.init prog, Nat.le_of_eq (Nat.add_zero _)⟩
  | step before next ih =>
    have alive' := Running.alive_before next alive
    obtain ⟨course, most⟩ := ih alive'
    obtain ⟨τ, sim⟩ := run_sim before.nodes alive'
    obtain ⟨τ', sim'⟩ := run_sim (before.step next).nodes alive
    have goes := Running.goes sim next alive
    have less := goes.left course sim
    exact ⟨course.step sim sim' goes, by omega⟩

/-! ## The end of a run -/

/-- Nothing but looking into empty queues can follow. -/
def Final (prog : Program) (σ : Running hash) : Prop :=
  ∀ σ', Relation.ReflTransGen (fun σ σ' => ∃ n, σ.step prog (.pass n) = some σ') σ σ' → ∀ a : RunAct, a.count ≠ 0 → σ'.step prog a = none

/-- No step that counts can follow, -/
theorem Final.now (final : Final prog σ) {a : RunAct} (counts : a.count ≠ 0) : σ.step prog a = none := final σ .refl a counts

/-- now or later. -/
theorem Final.pass (final : Final prog σ) (next : σ.step prog (.pass n) = some σ') : Final prog σ' :=
  fun σ'' passes => final σ'' (.head ⟨n, next⟩ passes)

/-- `rpc_recv` comes to the queue of each other node. -/
theorem scan_reaches (n i src : Node) (other : src ≠ n) : ∃ j, (scanNext n)^[j] i = src := by
  have within : ∃ j : Fin 4, (scanNext n)^[j.1] i = src := by
    revert n i src
    decide
  obtain ⟨j, reached⟩ := within
  exact ⟨j.1, reached⟩

/-- **Where a node receives there is nothing to take.** -/
theorem Final.queues (final : Final prog σ) (polls : σ.nodes.polls n) (other : src ≠ n) : (σ.nodes.box src n).queue = [] := by
  obtain ⟨j, reached⟩ := scan_reaches n (σ.scan n) src other
  induction j generalizing σ with
  | zero =>
    rw [Function.iterate_zero_apply] at reached
    by_contra more
    have stuck := final.now (a := .recv n) (by simp [RunAct.count])
    rw [reached.symm] at more
    simp [Running.step, Buffered.step, polls, more, guard] at stuck
  | succ j ih =>
    have here : (σ.nodes.box (σ.scan n) n).queue = [] := by
      by_contra more
      have stuck := final.now (a := .recv n) (by simp [RunAct.count])
      simp [Running.step, Buffered.step, polls, more, guard] at stuck
    have next : σ.step prog (.pass n) = some { σ with scan := Function.update σ.scan n (scanNext n (σ.scan n)) } := by
      simp [Running.step, polls, here]
    rw [Function.iterate_succ_apply] at reached
    have after := ih (final.pass next) polls (by simpa using reached)
    exact after

/-- What is taken is a message. -/
theorem Sim.content_some {ν : Buffered hash} (sim : Sim ν τ) (reading : ν.reading n = some src) : ∃ m, (ν.box src n).content = some m := by
  obtain ⟨i, taken⟩ := sim.boxes.taken_some reading
  cases here : (ν.box src n).content with
  | some m => exact ⟨m, rfl⟩
  | none =>
    have inside : none ∈ (ν.box src n).unfinished := by
      have member : i ∈ (ν.box src n).inUse := by simp [Mailbox.inUse, taken]
      rw [Mailbox.content, taken] at here
      exact List.mem_map.mpr ⟨i, member, here⟩
    have kept : none ∈ (ν.box src n).unfinished.filter plain := List.mem_filter.mpr ⟨inside, rfl⟩
    rw [← sim.chan] at kept
    simp at kept

/-- Nothing is written and not sent, -/
theorem Final.unsent (final : Final prog σ) (healthy : ∀ n, σ.nodes.failed n = none) (n : Node) : σ.nodes.sending n = none := by
  cases sending : σ.nodes.sending n with
  | none => rfl
  | some dst =>
    have stuck := final.now (a := .send n) (by simp [RunAct.count])
    simp [Running.step, Buffered.step, healthy n, sending, guard] at stuck

/-- nor taken and not handled. -/
theorem Final.unread (final : Final prog σ) (sim : Sim σ.nodes τ) (healthy : ∀ n, σ.nodes.failed n = none) (n : Node) : σ.nodes.reading n = none := by
  cases reading : σ.nodes.reading n with
  | none => rfl
  | some src =>
    obtain ⟨m, here⟩ := sim.content_some reading
    have sending := final.unsent healthy n
    cases n with
    | server s =>
      have stuck := final.now (a := .handle s) (by simp [RunAct.count])
      simp only [Running.step, Buffered.step, healthy, sending, reading, guard] at stuck
      cases turn : eventLoop s (σ.nodes.srv s) m with
      | error x => simp [here, turn] at stuck
      | ok out =>
        obtain ⟨st, _ | ⟨dst, m'⟩⟩ := out <;> simp [here, turn] at stuck
    | client c =>
      have stuck := final.now (a := .answer c) (by simp [RunAct.count])
      simp only [Running.step, Buffered.step, healthy, reading, guard] at stuck
      cases reply : clientReply c (σ.nodes.client c) m <;> simp [here, reply] at stuck

/-- A pair on which the protocol has nothing under way, and no message of `disconnect_mc_server`. -/
theorem Sim.nothing_before {ν : Buffered hash} (sim : Sim ν τ) (chan : τ.chan src dst = [])
    (ordinary : ∀ x ∈ (ν.box src dst).unfinished, plain x = true) : (ν.box src dst).unfinished = [] := by
  have same := sim.chan src dst
  rw [chan, List.filter_eq_self.mpr ordinary] at same
  exact same.symm

/-- Clients get no such message. -/
theorem Sim.ordinary_client {ν : Buffered hash} (sim : Sim ν τ) (x : Option McMsg) (member : x ∈ (ν.box src (.client c)).unfinished) :
    plain x = true := by
  cases src with
  | server s => exact sim.servers s _ x member
  | client d =>
    have none := sim.controls d (.client c)
    have zero : (ν.stage d).controls (.client c) = 0 := by
      cases ν.stage d <;> simp [Stage.controls, Node.isClient]
    rw [zero, Nat.le_zero, List.countP_eq_zero] at none
    simpa using none x member

/-- A client that waits for nothing has nothing before it, -/
theorem Sim.idle_before {ν : Buffered hash} (sim : Sim ν τ) (idle : ν.client c = .idle) (src : Node) : (ν.box src (.client c)).unfinished = [] := by
  refine sim.nothing_before ?_ sim.ordinary_client
  obtain ⟨ph, ok⟩ := sim.ok
  have was : ph c = .idle := by
    refine Phase.eq_idle ?_
    rw [← ok.pc, sim.client, idle, ite_self]
  cases src with
  | client d => exact ok.quiet _ _ fun inside => inside
  | server s =>
    by_cases own : c = s
    · subst own
      rw [ok.rep, was]
      rfl
    · exact ok.quiet _ _ own

/-- and no node has anything of its own. -/
theorem Sim.self_before {ν : Buffered hash} (sim : Sim ν τ) (n : Node) : (ν.box n n).unfinished = [] := by
  obtain ⟨ph, ok⟩ := sim.ok
  cases n with
  | server s => exact sim.nothing_before (ok.quiet _ _ (by simp [used])) (sim.servers s _)
  | client c => exact sim.nothing_before (ok.quiet _ _ fun inside => inside) sim.ordinary_client

/-- What is not under way is not in the queue. -/
theorem queue_nil (none : p.unfinished = []) : p.queue = [] := by
  have short := p.queue_length_le
  rw [none] at short
  exact List.length_eq_zero_iff.mp (Nat.le_zero.mp short)

/-- **At the end nothing is under way.** -/
theorem Final.empty (final : Final prog σ) (course : Course σ) (sim : Sim σ.nodes τ) (healthy : ∀ n, σ.nodes.failed n = none) (src dst : Node) :
    (σ.nodes.box src dst).inUse = [] := by
  have unsent := final.unsent healthy
  have unread := final.unread sim healthy
  have queue : (σ.nodes.box src dst).queue = [] := by
    by_cases own : src = dst
    · subst own
      exact queue_nil (sim.self_before src)
    cases dst with
    | server s =>
      cases runs : (σ.nodes.srv s).e with
      | true => exact final.queues ⟨healthy _, unread _, unsent _, runs⟩ own
      | false => exact (course.leaves s (Or.inl runs)).2 src
    | client c =>
      by_cases idle : σ.nodes.client c = .idle
      · exact queue_nil (sim.idle_before idle src)
      · exact final.queues ⟨healthy _, unread _, unsent _, idle⟩ own
  rw [Mailbox.inUse, sim.boxes.taken_none (unread dst) src, queue]
  rfl

/-- Both programs are over, both servers have left their loops, and no node is in the middle of anything. -/
def Running.over (σ : Running hash) : Bool :=
  ([node0, node1].all fun s => (σ.nodes.failed (.server s)).isNone && (σ.todo s).isEmpty && σ.nodes.stage s = .done &&
    σ.nodes.client s = .idle && !(σ.nodes.srv s).e) &&
  [Node.server node0, .server node1, .client node0, .client node1].all fun n => (σ.nodes.sending n).isNone && (σ.nodes.reading n).isNone

/-- In detail. -/
theorem Running.over_iff : σ.over = true ↔
    (∀ s, σ.nodes.failed (.server s) = none ∧ σ.todo s = [] ∧ σ.nodes.stage s = .done ∧ σ.nodes.client s = .idle ∧ (σ.nodes.srv s).e = false) ∧
      ∀ n, σ.nodes.sending n = none ∧ σ.nodes.reading n = none := by
  have nodes : ∀ P : Node → Prop, (∀ n, P n) ↔ P (.server node0) ∧ P (.server node1) ∧ P (.client node0) ∧ P (.client node1) := by
    refine fun P => ⟨fun all => ⟨all _, all _, all _, all _⟩, fun ⟨s₀, s₁, c₀, c₁⟩ n => ?_⟩
    cases n with
    | server s => obtain rfl | rfl := side_total s <;> assumption
    | client c => obtain rfl | rfl := side_total c <;> assumption
  rw [nodes, Fin.forall_fin_two]
  simp [Running.over, and_assoc]

/-- Nothing follows then. -/
theorem final_of_over (ended : σ.over = true) : Final prog σ := by
  obtain ⟨sides, nodes⟩ := Running.over_iff.mp ended
  have deaf : ∀ n, ¬ σ.nodes.polls n := by
    rintro n ⟨_, _, _, runs⟩
    cases n with
    | server s =>
      have running : (σ.nodes.srv s).e = true := runs
      rw [(sides s).2.2.2.2] at running
      cases running
    | client c => exact runs (sides c).2.2.2.1
  intro σ' passes a counts
  obtain rfl : σ = σ' := by
    rcases passes.cases_head with same | ⟨σ₁, ⟨n, next⟩, _⟩
    · exact same
    · simp [Running.step, deaf] at next
  cases a with
  | call c => simp [Running.step, (sides c).2.1]
  | disconnect c => simp [Running.step, Buffered.step, (sides c).2.2.1, Stage.disconnect]
  | advance c => simp [Running.step, Buffered.step, Buffered.advance, (sides c).2.2.1]
  | send n => simp [Running.step, Buffered.step, nodes]
  | recv n => simp [Running.step, Buffered.step, deaf, guard]
  | pass n => exact absurd rfl counts
  | handle s => simp [Running.step, Buffered.step, nodes]
  | answer c => simp [Running.step, Buffered.step, nodes]

/-- A list of steps that goes through is a run. -/
theorem Running.run_foldlM {k : Nat} (acts : List RunAct) (run : Running.Run prog k σ) (steps : acts.foldlM (Running.step prog) σ = some σ') :
    Running.Run prog (k + (acts.map RunAct.count).sum) σ' := by
  induction acts generalizing σ k with
  | nil =>
    obtain rfl : σ = σ' := by simpa using steps
    exact run
  | cons a acts ih =>
    rw [List.foldlM_cons, Option.bind_eq_bind, Option.bind_eq_some_iff] at steps
    obtain ⟨σ₁, step, rest⟩ := steps
    have more := ih (run.step step) rest
    rwa [List.map_cons, List.sum_cons, ← Nat.add_assoc]

/-- **Double buffering is enough.** Whatever keys are loaded and whatever the trace, a run in which no server has failed has a bounded number of
steps beside those that look into an empty queue. In every state of it a buffer that is written to holds no message in a queue and none that
its handler may still read; `rpc_send` finds room for every message; what was sent is, with the contents it had then, what was handled
and after it what is still pending; and a server that has left its loop has nothing in its queues. Where nothing else can follow
every message that was sent has been handled. -/
theorem double_buffering (hash : List UInt8 → Nat) (prog : Program) :
    ∃ bound, ∀ k (σ : Running hash), Running.Run prog k σ → (∀ s, σ.nodes.failed (.server s) = none) → k ≤ bound ∧
      (∀ a nodes n dst, σ.nodes.step a = some nodes → σ.nodes.writes a = some (n, dst) →
        (σ.nodes.box n dst).idx % 2 ∉ (σ.nodes.box n dst).inUse) ∧
      (∀ n dst, σ.nodes.sending n = some dst → σ.nodes.room n dst = true) ∧
      (∀ src dst, (σ.nodes.box src dst).sent =
        (σ.nodes.box src dst).handled ++ (σ.nodes.box src dst).pending.map (σ.nodes.box src dst).buf) ∧
      (∀ s, (σ.nodes.srv s).e = false → ∀ src, (σ.nodes.box src (.server s)).queue = []) ∧
      (Final prog σ → ∀ src dst, (σ.nodes.box src dst).handled = (σ.nodes.box src dst).sent) := by
  refine ⟨(Running.init prog : Running hash).left prog, fun k σ run alive => ?_⟩
  obtain ⟨course, most⟩ := run.course alive
  obtain ⟨writes, room, contents⟩ := buffers_suffice hash σ.nodes run.nodes alive
  refine ⟨by omega, writes, room, contents, fun s ended => (course.leaves s (Or.inl ended)).2, fun final src dst => ?_⟩
  obtain ⟨τ, sim⟩ := run_sim run.nodes alive
  have healthy : ∀ n, σ.nodes.failed n = none := by
    intro n
    cases n with
    | server s => exact alive s
    | client c => exact course.values.healthy c
  have nothing := final.empty course sim healthy src dst
  have pending : (σ.nodes.box src dst).pending = [] := List.eq_nil_of_subset_nil (nothing ▸ Mailbox.pending_subset _)
  rw [contents, pending, List.map_nil, List.append_nil]

end

/-- One key is loaded, client 2 sets it again and client 3 gets it. -/
def oneKey : Program := ⟨[someKey], fun c => if c = node0 then [.update someKey] else [.read someKey], by decide⟩

/-- All of a run. Server 1 is past the queue of client 2 when MC_BEGIN comes, and takes the first request of client 3 before it. -/
def wholeRun : List RunAct :=
  [.call node0, .send (.client node0), .advance node1, .pass (.server node0), .recv (.server node0), .handle node0,
    .send (.server node0), .pass (.server node1), .pass (.server node1), .recv (.server node1), .handle node1,
    .send (.server node1), .recv (.server node0), .handle node0, .send (.server node0), .pass (.server node1),
    .pass (.server node1), .recv (.server node1), .handle node1, .send (.server node1), .recv (.server node0),
    .handle node0, .send (.server node0), .pass (.client node0), .recv (.client node0), .answer node0, .advance node0,
    .disconnect node0, .send (.client node0), .pass (.server node1), .disconnect node0, .send (.client node0),
    .advance node0, .advance node0, .call node0, .send (.client node0), .advance node1, .call node1,
    .send (.client node1), .recv (.server node1), .handle node1, .send (.server node1), .recv (.server node1),
    .handle node1, .pass (.server node0), .recv (.server node0), .handle node0, .pass (.server node0),
    .recv (.server node0), .handle node0, .send (.server node0), .pass (.server node1), .pass (.server node1),
    .recv (.server node1), .handle node1, .send (.server node1), .recv (.server node0), .handle node0,
    .send (.server node0), .pass (.server node1), .pass (.server node1), .recv (.server node1), .handle node1,
    .send (.server node1), .recv (.server node0), .handle node0, .send (.server node0), .pass (.client node0),
    .recv (.client node0), .answer node0, .advance node0, .advance node0, .pass (.client node1), .recv (.client node1),
    .answer node1, .advance node1, .advance node1, .advance node0, .disconnect node0, .send (.client node0),
    .advance node1, .disconnect node1, .send (.client node1), .pass (.server node1), .recv (.server node1),
    .handle node1, .pass (.server node0), .recv (.server node0), .handle node0]

/-- Client 3 has its request handled before the MC_BEGIN of client 2, and all messages are handled at the end. -/
theorem double_buffering_whole_run : ∃ bound k, ∃ σ : Running fun _ => 0, Running.Run oneKey k σ ∧ k ≤ bound ∧
    (σ.nodes.box (.client 0) (.server 1)).handled = [some (.mcBegin (.client 0))] ∧
    (σ.nodes.box (.client 1) (.server 1)).handled = [some (.get (.client 1) someKey), some (.mcExit (.client 1))] ∧
    ∀ src dst, (σ.nodes.box src dst).handled = (σ.nodes.box src dst).sent := by
  have run : (wholeRun.foldlM (Running.step oneKey) (Running.init oneKey : Running fun _ => 0)).map (fun σ =>
      (σ.over, (σ.nodes.box (.client 0) (.server 1)).handled, (σ.nodes.box (.client 1) (.server 1)).handled)) =
      some (true, [some (.mcBegin (.client 0))], [some (.get (.client 1) someKey), some (.mcExit (.client 1))]) := by
    decide +kernel
  obtain ⟨σ, reached, seen⟩ := Option.map_eq_some_iff.mp run
  simp only [Prod.mk.injEq] at seen
  obtain ⟨ended, begins, own⟩ := seen
  have reach := Running.run_foldlM wholeRun .init reached
  obtain ⟨bound, every⟩ := double_buffering (fun _ => 0) oneKey
  obtain ⟨short, _, _, _, _, settled⟩ := every _ σ reach fun s => ((Running.over_iff.mp ended).1 s).1
  exact ⟨bound, _, σ, reach, short, begins, own, settled (final_of_over ended)⟩

end BiProject.TwoPc
