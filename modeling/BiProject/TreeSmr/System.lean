import BiProject.TreeSmr.Search
import BiProject.Smr.Reclamation

/-!
# The tree on reclaimed memory

`rb_tree/imple_bi.c` with the runtime below it: the server of node 0 runs `TreeBB_Insert` and `TreeBB_Delete` on cells of the slab,
keeps what they free in `free_buf`, and passes it to `bi_smr_free` when the operation has ended; `bi_smr_reclaim` gives cells back to
the slab, which may hand them out again. The cores of all nodes run `cb_find`, each in a section of its own.

The steps of the runtime are those of `Smr`, with their clocks; the loads and stores of the tree fall anywhere between them. One
thread of node 0 runs the message handler, then `free_nodes`, and in the same loop `bi_smr_reclaim`.

The memory here is what the cores of node 0 see. The caches of another node may hold old copies of any line, so that its searches may
load anything; they keep their sections all the same.
-/

namespace BiProject.TreeSmr
set_option autoImplicit false
open BiProject.RbTree

/-- A `cb_find` after its `bi_enter`: the key, where the search is, and the memories since then. -/
structure Search where
  key : Nat
  pos : Place
  since : List Mem

/-- The tree and the operation in progress, the types in the headers of its cells, `free_buf`, the cells that the slab has handed out
and not got back, the searches and the runtime. -/
structure Sys where
  tree : RbTree.Sys
  type : Addr → Nat
  freeBuf : List Addr
  live : Set Addr
  find : Nat → Nat → Option Search
  rt : Smr.Runtime

/-- The searches see a memory. -/
def Sys.seeing (σ : Sys) (m : Mem) : Nat → Nat → Option Search := fun n c => (σ.find n c).map fun s => { s with since := m :: s.since }

/-- A step that reads no clock. -/
inductive Local (fuel : Nat) (σ : Sys) : Sys → Prop where
  -- the handler begins; `bi_slab_alloc` returns what is not handed out
  | begin {cells : Nat → Addr} {op : Op} {res : Res} {es : List Event} (ended : σ.tree.pending = []) (emptied : σ.freeBuf = [])
      (distinct : Function.Injective cells) (unused : ∀ i, cells i ∉ σ.live) (run : op.run fuel cells σ.tree.mem = some (res, es))
      (small : (op.ref σ.tree.after).length < maxNodes) :
      Local fuel σ { σ with
        tree := ⟨σ.tree.mem, es, σ.tree.after, op.ref σ.tree.after⟩
        live := σ.live ∪ {a | a ∈ allocs es}
        find := σ.seeing σ.tree.mem }
  -- `bi_slab_alloc` writes a reading of the clock to the header
  | store {e : Event} {es : List Event} {tsc : Nat} (next : σ.tree.pending = e :: es) :
      Local fuel σ { σ with
        tree := ⟨σ.tree.mem.apply e, es, σ.tree.before, σ.tree.after⟩
        type := fun a => if a ∈ allocs [e] then tsc else σ.type a
        freeBuf := σ.freeBuf ++ frees [e]
        find := σ.seeing (σ.tree.mem.apply e) }
  -- `bi_smr_free` of the node on top of `free_buf`: the header first
  | setfree {a : Addr} {l : List Addr} (ended : σ.tree.pending = []) (top : σ.freeBuf = l ++ [a]) :
      Local fuel σ { σ with type := fun b => if b = a then slabFree else σ.type b }
  | load {c : Nat} {s : Search} {p : Place} (search : σ.find 0 c = some s) (step : Goes s.key σ.tree.mem σ.type s.pos p) :
      Local fuel σ { σ with find := Smr.upd σ.find 0 c (some { s with pos := p }) }
  -- another node, which may have loaded an old copy
  | stale {n c : Nat} {s : Search} {p : Place} (search : σ.find n c = some s) (away : n ≠ 0) :
      Local fuel σ { σ with find := Smr.upd σ.find n c (some { s with pos := p }) }

/-- The steps of the runtime that the tree takes part in. -/
def Ours : Smr.Ev → Prop
  | .enter _ _ | .exit _ _ => True
  | .free _ κ _ _ _ => κ = .smr
  | .reclaim n κ _ => n = 0 ∧ κ = .smr
  | _ => False

/-- What a step of the runtime is for the tree. Only node 0 frees. -/
inductive Shared (σ : Sys) : Smr.Ev → Sys → Prop where
  | enter {n c key : Nat} (idle : σ.find n c = none) :
      Shared σ (.enter n c) { σ with find := Smr.upd σ.find n c (some ⟨key, .load .root, [σ.tree.mem]⟩) }
  | exit {n c : Nat} {s : Search} {r : Option Addr} (search : σ.find n c = some s) (done : s.pos = .done r) :
      Shared σ (.exit n c) { σ with find := Smr.upd σ.find n c none }
  -- `free_nodes`, from the top, after the header
  | free {buf : Smr.Addr} {l : List Addr} {sz : Nat} {put : List Smr.QuiesItem} (ended : σ.tree.pending = [])
      (top : σ.freeBuf = l ++ [buf.toNat]) (marked : σ.type buf.toNat = slabFree) :
      Shared σ (.free 0 .smr buf sz put) { σ with freeBuf := l }
  | reclaim {items : List Smr.QuiesItem} (ended : σ.tree.pending = []) (emptied : σ.freeBuf = []) :
      Shared σ (.reclaim 0 .smr items) { σ with live := {a | a ∈ σ.live ∧ ∀ i ∈ items, i.obj.toNat ≠ a} }
  | other {ev : Smr.Ev} (others : ¬ Ours ev) : Shared σ ev σ

/-- After `cb_tree_init`: a tree, and its cells are those handed out. -/
structure Sys.Ready (fuel : Nat) (σ : Sys) (r₀ : Smr.Runtime) : Prop where
  written : Written fuel σ.tree
  ended : σ.tree.pending = []
  freeBuf : σ.freeBuf = []
  live : ∀ a, a ∈ σ.live ↔ Reach σ.tree.mem.heap σ.tree.mem.root a
  find : ∀ n c, σ.find n c = none
  rt : σ.rt = r₀

/-- Runs: the steps of the runtime with their true times, the current time, the clock views and the state reached. -/
inductive Run (P : Smr.Params) (fuel start : Nat) (r₀ : Smr.Runtime) : Smr.History → Nat → (Nat → Nat) → Sys → Prop where
  | init {σ : Sys} (view : Nat → Nat) (ready : σ.Ready fuel r₀) : Run P fuel start r₀ [] start view σ
  | tree {h : Smr.History} {now : Nat} {view : Nat → Nat} {σ σ' : Sys} (before : Run P fuel start r₀ h now view σ)
      (step : Local fuel σ σ') : Run P fuel start r₀ h now view σ'
  | runtime {h : Smr.History} {now t : Nat} {view view' clk : Nat → Nat} {σ σ' : Sys} {rt : Smr.Runtime} {ev : Smr.Ev}
      (before : Run P fuel start r₀ h now view σ) (later : now < t) (node : ev.node < P.activeNodes)
      (clock : Smr.Clock P t view view' ev.node clk) (act : Smr.Do P clk σ.rt ev rt) (shared : Shared σ ev σ') :
      Run P fuel start r₀ (⟨t, ev⟩ :: h) t view' { σ' with rt := rt }

end BiProject.TreeSmr
