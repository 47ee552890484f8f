import Mathlib.Data.Int.Init
import Mathlib.Algebra.Group.Int.Defs
import Mathlib.Algebra.Group.Nat.Defs

/-!
# The concurrent balanced tree

`rb_tree/cbtree.c`: a weight-balanced search tree on heap nodes. Rotations build new nodes and free
the old ones; a level that stays balanced is updated in place by one visible store to a child
pointer. Every effect of the writer on memory is an event of its log, in program order: each store
to a field of a node or to `tree->root`, and what is obtained from `TreeBBNewNode` and passed to
`TreeBBFreeNode`.

A NULL dereference, a failed assertion or a recursion deeper than `fuel` is `none`.
`TreeBBNewNode` returns `cells 0`, `cells 1`, and so on.
-/

namespace BiProject.RbTree
set_option autoImplicit false

/-- The address of a tree node; a pointer is `none` for NULL. -/
abbrev Addr := Nat

/-- `struct cb_kv`; the value 0 is NULL. -/
structure Kv where
  key : Nat
  value : Nat
deriving DecidableEq, Repr

/-- `struct TreeBB_Node`. -/
structure Node where
  left : Option Addr
  right : Option Addr
  size : Nat
  kv : Kv
deriving DecidableEq, Repr

/-- The nodes by their addresses. -/
abbrev Heap := Addr → Node

/-- The `replace` argument of `mkBalanced`: 0 is the left child, 1 the right one. -/
inductive Side where
  | left
  | right
deriving DecidableEq, Repr

/-- A child by its side. -/
def Node.child (n : Node) : Side → Option Addr
  | .left => n.left
  | .right => n.right

def Node.setChild (n : Node) (p : Option Addr) : Side → Node
  | .left => { n with left := p }
  | .right => { n with right := p }

/-- What the writer does to memory. -/
inductive Event where
  | alloc (a : Addr)
  | free (a : Addr)
  | link (d : Side) (a : Addr) (p : Option Addr)
  | size (a : Addr) (n : Nat)
  | kv (a : Addr) (x : Kv)
  | root (p : Option Addr)
deriving DecidableEq, Repr

/-- Change one node. -/
def modify (h : Heap) (a : Addr) (f : Node → Node) : Heap := fun b => if b = a then f (h b) else h b

/-- What an event does to the nodes. -/
def Event.apply (h : Heap) : Event → Heap
  | .link d a p => modify h a fun n => n.setChild p d
  | .size a k => modify h a fun n => { n with size := k }
  | .kv a x => modify h a fun n => { n with kv := x }
  | .alloc _ | .free _ | .root _ => h

/-- Any number of events. -/
def applyAll (h : Heap) (es : List Event) : Heap := es.foldl Event.apply h

/-- The nodes obtained, -/
def allocs (es : List Event) : List Addr :=
  es.filterMap fun | .alloc a => some a | _ => none

/-- and the nodes given back. -/
def frees (es : List Event) : List Addr :=
  es.filterMap fun | .free a => some a | _ => none

/-- The nodes, how many cells `TreeBBNewNode` has handed out, and the log. -/
structure St where
  heap : Heap
  used : Nat
  log : List Event

/-- Events happen and are logged. -/
def St.emit (s : St) (es : List Event) : St :=
  ⟨applyAll s.heap es, s.used + (allocs es).length, s.log ++ es⟩

/-- What a function of the tree does, if it does not fail. -/
abbrev TreeM := StateT St Option

/-- One event. -/
def emit (e : Event) : TreeM Unit := fun s => some ((), s.emit [e])

/-- Loads a node. -/
def load (a : Addr) : TreeM Node := fun s => some (s.heap a, s)

/-- Loads the node a pointer points to; NULL fails. -/
def deref : Option Addr → TreeM (Addr × Node)
  | some a => fun s => some ((a, s.heap a), s)
  | none => fun _ => none

/-- `int` arithmetic wraps at 32 bits, and `size` is an `unsigned int`. -/
def int (x : Int) : Int := x.bmod (2 ^ 32)
def unsigned (x : Int) : Nat := (x % 2 ^ 32).toNat

/-- `WEIGHT`. -/
def weight : Nat := 4

def heapSize (h : Heap) : Option Addr → Int
  | some a => int (h a).size
  | none => 0

/-- `nodeSize`. -/
def nodeSize (p : Option Addr) : TreeM Int := fun s => some (heapSize s.heap p, s)

section Program
variable (cells : Nat → Addr)

def treeBBNewNode : TreeM Addr := fun s => some (cells s.used, s.emit [.alloc (cells s.used)])

def treeBBFreeNode (a : Addr) : TreeM Unit := emit (.free a)

def mkNode (left right : Option Addr) (kv : Kv) : TreeM Addr := do
  let node ← treeBBNewNode cells
  emit (.link .left node left)
  emit (.link .right node right)
  let ln ← nodeSize left
  let rn ← nodeSize right
  emit (.size node (unsigned (int (int (1 + ln) + rn))))
  emit (.kv node kv)
  return node

def singleL (left right : Option Addr) (kv : Kv) : TreeM Addr := do
  let (ra, r) ← deref right
  let inner ← mkNode cells left r.left kv
  let res ← mkNode cells (some inner) r.right r.kv
  treeBBFreeNode ra
  return res

def doubleL (left right : Option Addr) (kv : Kv) : TreeM Addr := do
  let (ra, r) ← deref right
  let (ma, m) ← deref r.left
  let fst ← mkNode cells left m.left kv
  let snd ← mkNode cells m.right r.right r.kv
  let res ← mkNode cells (some fst) (some snd) m.kv
  treeBBFreeNode ma
  treeBBFreeNode ra
  return res

def singleR (left right : Option Addr) (kv : Kv) : TreeM Addr := do
  let (la, l) ← deref left
  let inner ← mkNode cells l.right right kv
  let res ← mkNode cells l.left (some inner) l.kv
  treeBBFreeNode la
  return res

def doubleR (left right : Option Addr) (kv : Kv) : TreeM Addr := do
  let (la, l) ← deref left
  let (ma, m) ← deref l.right
  let fst ← mkNode cells l.left m.left l.kv
  let snd ← mkNode cells m.right right kv
  let res ← mkNode cells (some fst) (some snd) m.kv
  treeBBFreeNode ma
  treeBBFreeNode la
  return res

def mkBalancedL (left right : Option Addr) (kv : Kv) : TreeM Addr := do
  let (_, r) ← deref right
  let rln ← nodeSize r.left
  let rrn ← nodeSize r.right
  if rln < rrn then singleL cells left right kv else doubleL cells left right kv

def mkBalancedR (left right : Option Addr) (kv : Kv) : TreeM Addr := do
  let (_, l) ← deref left
  let lln ← nodeSize l.left
  let lrn ← nodeSize l.right
  if lrn < lln then singleR cells left right kv else doubleR cells left right kv

/-- The label `balanced` of `mkBalanced`, in place: the child that was not replaced is asserted to be
what it was. -/
def balancedInPlace (cur : Addr) (left right : Option Addr) (replace : Side) : TreeM Addr := do
  let n ← load cur
  let (same, old, new) := match replace with
    | .left => (decide (n.right = right), n.left, left)
    | .right => (decide (n.left = left), n.right, right)
  if same then
    if old ≠ new then emit (.link replace cur new)
    let ln ← nodeSize left
    let rn ← nodeSize right
    emit (.size cur (unsigned (int (int (1 + ln) + rn))))
    return cur
  else failure

/-- The label `balanced` of `mkBalanced`, not in place. -/
def balancedCopy (cur : Addr) (left right : Option Addr) (kv : Kv) : TreeM Addr := do
  let res ← mkNode cells left right kv
  treeBBFreeNode cur
  return res

def mkBalanced (cur : Addr) (left right : Option Addr) (replace : Side) (inPlace : Bool) : TreeM Addr := do
  let ln ← nodeSize left
  let rn ← nodeSize right
  let kv := (← load cur).kv
  let balanced := if inPlace then balancedInPlace cur left right replace else balancedCopy cells cur left right kv
  if int (ln + rn) < 2 then balanced
  else if rn > int (weight * ln) then do
    let res ← mkBalancedL cells left right kv
    treeBBFreeNode cur
    return res
  else if ln > int (weight * rn) then do
    let res ← mkBalancedR cells left right kv
    treeBBFreeNode cur
    return res
  else balanced

def insert : Nat → Option Addr → Kv → TreeM (Option Addr)
  | 0, _, _ => failure
  | _ + 1, none, kv => do
    let node ← mkNode cells none none kv
    return some node
  | fuel + 1, some node, kv => do
    let n ← load node
    if kv.key < n.kv.key then
      let left ← insert fuel n.left kv
      let res ← mkBalanced cells node left n.right .left true
      return some res
    else if kv.key > n.kv.key then
      let right ← insert fuel n.right kv
      let res ← mkBalanced cells node n.left right .right true
      return some res
    else return some node

/-- Returns the tree without its minimum, and the node that holds the minimum. -/
def deleteMin : Nat → Addr → TreeM (Option Addr × Addr)
  | 0, _ => failure
  | fuel + 1, node => do
    let n ← load node
    match n.left with
    | none => return (n.right, node)
    | some left =>
      let (rest, min) ← deleteMin fuel left
      let res ← mkBalanced cells node rest n.right .left false
      return (some res, min)

/-- Returns the new subtree and `*deleted`. -/
def delete : Nat → Option Addr → Nat → TreeM (Option Addr × Nat)
  | 0, _, _ => failure
  | _ + 1, none, _ => return (none, 0)
  | fuel + 1, some node, key => do
    let n ← load node
    if key < n.kv.key then
      let (left, deleted) ← delete fuel n.left key
      let res ← mkBalanced cells node left n.right .left true
      return (some res, deleted)
    else if key > n.kv.key then
      let (right, deleted) ← delete fuel n.right key
      let res ← mkBalanced cells node n.left right .right true
      return (some res, deleted)
    else do
      treeBBFreeNode node
      match n.left, n.right with
      | none, right => return (right, n.kv.value)
      | left, none => return (left, n.kv.value)
      | left, some right =>
        let (rest, min) ← deleteMin cells fuel right
        let res ← mkBalanced cells min left rest .right false
        return (some res, n.kv.value)

end Program

/-- The memory the tree lives in: the nodes and `tree->root`. -/
structure Mem where
  heap : Heap
  root : Option Addr

/-- The store to `tree->root` that ends an operation, if there is one. -/
def publishRoot (root nroot : Option Addr) : List Event := if root ≠ nroot then [.root nroot] else []

/-- What an event does to memory. -/
def Mem.apply (m : Mem) (e : Event) : Mem :=
  ⟨e.apply m.heap, match e with | .root p => p | _ => m.root⟩

/-- The log of `TreeBB_Insert`. -/
def treeBBInsert (fuel : Nat) (cells : Nat → Addr) (m : Mem) (key value : Nat) : Option (List Event) :=
  (insert cells fuel m.root ⟨key, value⟩ ⟨m.heap, 0, []⟩).map fun (nroot, s) => s.log ++ publishRoot m.root nroot

/-- The value `TreeBB_Delete` returns, and its log. -/
def treeBBDelete (fuel : Nat) (cells : Nat → Addr) (m : Mem) (key : Nat) : Option (Nat × List Event) :=
  (delete cells fuel m.root key ⟨m.heap, 0, []⟩).map fun ((nroot, deleted), s) =>
    (deleted, s.log ++ publishRoot m.root nroot)

/-- The `while` loop of `TreeBB_Find`; the debugging block reads the key twice and stops if it
changed, which a node that is not reused does not do. -/
def treeBBFindLoop (h : Heap) (needle : Nat) : Nat → Option Addr → Option (Option Kv)
  | _, none => some none
  | 0, some _ => none
  | fuel + 1, some node =>
    if (h node).kv.key = needle then some (some (h node).kv)
    else if (h node).kv.key > needle then treeBBFindLoop h needle fuel (h node).left
    else treeBBFindLoop h needle fuel (h node).right

def treeBBFind (fuel : Nat) (m : Mem) (needle : Nat) : Option (Option Kv) :=
  treeBBFindLoop m.heap needle fuel m.root

end BiProject.RbTree
