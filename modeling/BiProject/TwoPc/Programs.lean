import BiProject.TwoPc.DoubleBuffer

/-!
# The programs as written

`client_init` and `client_start` make their calls one after another: client 2 stores the keys it loads, each client works on
its lines of the trace, and every value is made of `$`. And `rpc_recv` looks into one queue at a time, from the one after its
caller's own on; after a message it begins there again. So a node is at one of the queues, and goes on to the next one when
it finds nothing.
-/

namespace BiProject.TwoPc
set_option autoImplicit false
open BiProject.McServer BiProject.Lib

theorem dollars_length : (List.replicate vLength (36 : UInt8)).length = vLength := List.length_replicate

/-- `memset(value, '$', V_LENGTH)`. -/
def dollars : Value := ⟨List.replicate vLength 36, dollars_length⟩

/-- A line of the trace: `R` or `U`, and a key. -/
inductive Line where
  | read (key : Key)
  | update (key : Key)

def Line.op : Line → Op
  | .read key => .get key
  | .update key => .set key dollars

/-- The keys that `preload_key` reads, and the lines of `ops` that the loop of `bench` takes on each client: every other one
of `N_OPS`, so there are some. -/
structure Program where
  keys : List Key
  trace : Side → List Line
  works : ∀ c, trace c ≠ []

/-- `(i + 1) % NUM_NODE`. -/
def Node.next : Node → Node
  | .server s => if s = node0 then .server node1 else .client node0
  | .client c => if c = node0 then .client node1 else .server node0

/-- The loop of `rpc_recv` goes on to the next queue, and begins again where it would come to the caller's own. -/
def scanNext (caller i : Node) : Node := if i.next = caller then caller.next else i.next

/-- The nodes, with the calls that are left of `preload_key` or `bench`, and the queue that `rpc_recv` looks into. -/
structure Running (hash : List UInt8 → Nat) where
  nodes : Buffered hash
  todo : Side → List Op
  scan : Node → Node

inductive RunAct where
  | call (c : Side)
  | disconnect (c : Side)
  | advance (c : Side)
  | send (n : Node)
  | recv (n : Node)
  | pass (n : Node)
  | handle (s : Side)
  | answer (c : Side)

section
variable {hash : List UInt8 → Nat}

def Running.init (prog : Program) : Running hash where
  nodes := Buffered.init
  todo := fun c => if c = node0 then prog.keys.map fun key => .set key dollars else []
  scan := Node.next

/-- One step. A client calls what is next, and goes on in its program when there is nothing left to call; a node that finds its queue empty
passes on. -/
def Running.step (prog : Program) (σ : Running hash) : RunAct → Option (Running hash)
  | .call c =>
    match σ.todo c with
    | [] => none
    | op :: rest => (σ.nodes.step (.call c op)).map fun nodes => { σ with nodes := nodes, todo := Function.update σ.todo c rest }
  | .disconnect c => (σ.nodes.step (.disconnect c)).map fun nodes => { σ with nodes := nodes }
  | .advance c =>
    if (σ.todo c).isEmpty then
      (σ.nodes.step (.advance c)).map fun nodes =>
        { σ with nodes := nodes, todo := if σ.nodes.stage c = .wait1 then Function.update σ.todo c ((prog.trace c).map Line.op) else σ.todo }
    else none
  | .send n => (σ.nodes.step (.send n)).map fun nodes => { σ with nodes := nodes }
  | .recv n =>
    (σ.nodes.step (.recv n (σ.scan n))).map fun nodes => { σ with nodes := nodes, scan := Function.update σ.scan n n.next }
  | .pass n =>
    if σ.nodes.polls n ∧ (σ.nodes.box (σ.scan n) n).queue = [] then
      some { σ with scan := Function.update σ.scan n (scanNext n (σ.scan n)) }
    else none
  | .handle s => (σ.nodes.step (.handle s)).map fun nodes => { σ with nodes := nodes }
  | .answer c => (σ.nodes.step (.answer c)).map fun nodes => { σ with nodes := nodes }

/-- Looking into an empty queue does not count. -/
def RunAct.count : RunAct → Nat
  | .pass _ => 0
  | _ => 1

/-- The states of the runs with `k` steps that count. -/
inductive Running.Run (prog : Program) : Nat → Running hash → Prop
  | init : Running.Run prog 0 (Running.init prog)
  | step {k : Nat} {σ σ' : Running hash} {a : RunAct} (before : Running.Run prog k σ) (next : σ.step prog a = some σ') :
      Running.Run prog (k + a.count) σ'

variable {prog : Program} {σ σ' : Running hash} {a : RunAct} {k : Nat}

/-- A step of the programs is one of the nodes, or passes on. -/
theorem Running.step_nodes (step : σ.step prog a = some σ') : (∃ b, σ.nodes.step b = some σ'.nodes) ∨ (a.count = 0 ∧ σ'.nodes = σ.nodes) := by
  cases a with
  | call c =>
    simp only [Running.step] at step
    split at step
    · cases step
    · obtain ⟨nodes, made, rfl⟩ := Option.map_eq_some_iff.mp step
      exact Or.inl ⟨_, made⟩
  | advance c =>
    simp only [Running.step, Option.ite_none_right_eq_some] at step
    obtain ⟨nodes, made, rfl⟩ := Option.map_eq_some_iff.mp step.2
    exact Or.inl ⟨_, made⟩
  | pass n =>
    simp only [Running.step, Option.ite_none_right_eq_some, Option.some.injEq] at step
    obtain ⟨_, rfl⟩ := step
    exact Or.inr ⟨rfl, rfl⟩
  | _ =>
    obtain ⟨nodes, made, rfl⟩ := Option.map_eq_some_iff.mp step
    exact Or.inl ⟨_, made⟩

/-- The nodes take the steps of `Buffered`. -/
theorem Running.Run.nodes (run : Running.Run prog k σ) : Buffered.Run σ.nodes := by
  induction run with
  | init => exact .init
  | step _ next ih =>
    rcases Running.step_nodes next with ⟨b, made⟩ | ⟨_, same⟩
    · exact ih.step made
    · rw [same]
      exact ih

end

end BiProject.TwoPc
