import BiProject.TwoPc.Store
import Mathlib.Data.List.ReduceOption
import Mathlib.Data.List.TakeWhile
import Mathlib.Data.Fin.Basic

/-!
# The servers of `2pc_mc`

`servers/server.c` without `KEY_SKEW`: the log of the keys that are being committed and one turn of `event_loop`. A
client's SET is logged and prepared at the other server; its PREPARE_OK lets the first server write the key and ask for
the commit, and the COMMIT lets the second one write it. What a message carries is what its sender writes into the
buffer and its handler reads. An assertion that fails ends a turn with its name.
-/

namespace BiProject.TwoPc
set_option autoImplicit false
open BiProject.McServer

/-! ## Nodes and messages -/

/-- The servers 0 and 1; client `s + 2` belongs to server `s`. -/
abbrev Side := Fin 2

/-- `1-cur_node`. -/
def peer (s : Side) : Side := 1 - s

abbrev node0 : Side := 0
abbrev node1 : Side := 1

inductive Node where
  | server (s : Side)
  | client (s : Side)
deriving DecidableEq

/-- `sender >= NUM_NODE/2`. -/
def Node.isClient : Node → Bool
  | .server _ => false
  | .client _ => true

inductive McMsg where
  | get (id : Node) (key : Key)
  | set (id : Node) (key : Key) (data : Value)
  | getOk (id : Node) (data : List UInt8)
  | getFail (id : Node)
  | setOk (id : Node)
  | prepare (id : Node) (key : Key) (data : Value)
  | prepareOk (id : Node) (key : Key) (data : Value)
  | commit (id : Node) (key : Key) (data : Value)
  | commitOk (id : Node)
  | mcBegin (id : Node)
  | mcExit (id : Node)
deriving DecidableEq

def McMsg.id : McMsg → Node
  | .get id _ | .set id _ _ | .getOk id _ | .getFail id | .setOk id | .prepare id _ _ | .prepareOk id _ _ | .commit id _ _
  | .commitOk id | .mcBegin id | .mcExit id => id

/-- The assertions of `event_loop`, `mc_commit` and `mc_update`, and of the client's calls. -/
inductive Assertion where
  | senderClient
  | senderPeer
  | clientId
  | logFull
  | keyHeld
  | keyMissing
  | queueFull
  | replyId
  | replyType
  | replyData
deriving DecidableEq

def assert (p : Prop) [Decidable p] (a : Assertion) : Except Assertion Unit := if p then .ok () else .error a

/-! ## The log -/

/-- `strncmp` returns 0. -/
def strncmpZero : Nat → List UInt8 → List UInt8 → Bool
  | 0, _, _ => true
  | n + 1, a :: as, b :: bs => a == b && (a == 0 || strncmpZero n as bs)
  | _ + 1, _, _ => false

/-- `strncpy`: a source that ends early is filled up with NULs. -/
def strncpy (dst src : List UInt8) (n : Nat) : List UInt8 :=
  let text := (src.take n).takeWhile (· ≠ 0)
  text ++ List.replicate (n - text.length) 0 ++ dst.drop n

/-- The keys of `log_key`; what its field `it` holds is not used without `KEY_SKEW`. -/
abbrev LogKey := Fin 2 → List UInt8

/-- The loop of `mc_commit`: none where it returns 1, else the last free slot it met. -/
def mcCommitLoop (log : LogKey) (key : Key) : List (Fin 2) → Option (Fin 2) → Option (Option (Fin 2))
  | [], w => some w
  | i :: is, w =>
    if (log i).head? = some 0 then mcCommitLoop log key is (some i)
    else if strncmpZero keyLength key (log i) then none
    else mcCommitLoop log key is w

def mcCommit (log : LogKey) (key : Key) : Except Assertion (Nat × LogKey) :=
  match mcCommitLoop log key (List.finRange 2) none with
  | none => .ok (1, log)
  | some none => .error .logFull
  | some (some w) => .ok (0, Function.update log w (strncpy (log w) key keyLength))

/-- `mc_update`, up to `mc_set_key_ext`. -/
def mcUpdate (log : LogKey) (key : Key) : Except Assertion LogKey :=
  match (List.finRange 2).find? fun i => strncmpZero keyLength key (log i) with
  | none => .error .keyMissing
  | some i => .ok (Function.update log i ((log i).set 0 0))

/-! ## One turn of `event_loop` -/

/-- The variables of a server; `e` is false after MC_EXIT. -/
structure Srv (hash : List UInt8 → Nat) where
  logKey : LogKey
  table : Table hash
  clientId : Node
  loading : Bool
  e : Bool

section
variable {hash : List UInt8 → Nat}

/-- `server_init`. -/
def Srv.init : Srv hash := ⟨fun _ => List.replicate keyLength 0, Table.empty, .server 0, true, true⟩

/-- What a turn does with a message, and the message it passes to `rpc_send`. -/
def eventLoop (cur : Side) (st : Srv hash) : McMsg → Except Assertion (Srv hash × Option (Node × McMsg))
  | .get sender key => do
    assert (sender.isClient = true) .senderClient
    match st.table.mcGetKeyExt key with
    | some data => return (st, some (sender, .getOk (.server cur) data))
    | none => return (st, some (sender, .getFail (.server cur)))
  | .set sender key data => do
    assert (sender.isClient = true) .senderClient
    let (r, log) ← mcCommit st.logKey key
    assert (r = 0) .keyHeld
    return ({ st with clientId := sender, logKey := log }, some (.server (peer cur), .prepare (.server cur) key data))
  | .prepare sender key data => do
    assert (sender = .server (peer cur)) .senderPeer
    let (r, log) ← mcCommit st.logKey key
    assert (r = 0) .keyHeld
    return ({ st with logKey := log }, some (sender, .prepareOk (.server cur) key data))
  | .prepareOk sender key data => do
    assert (sender = .server (peer cur)) .senderPeer
    let log ← mcUpdate st.logKey key
    return ({ st with logKey := log, table := st.table.mcSetKeyExt key data }, some (sender, .commit (.server cur) key data))
  | .commit sender key data => do
    assert (sender = .server (peer cur)) .senderPeer
    let log ← mcUpdate st.logKey key
    return ({ st with logKey := log, table := st.table.mcSetKeyExt key data }, some (sender, .commitOk (.server cur)))
  | .commitOk sender => do
    assert (sender = .server (peer cur)) .senderPeer
    assert (st.clientId = .client cur) .clientId
    return (st, some (st.clientId, .setOk (.server cur)))
  | .mcBegin _ => return ({ st with loading := false }, none)
  | .mcExit _ => return ({ st with e := false }, none)
  | _ => return (st, none)

end

/-! ## What the log holds -/

/-- A slot that is free, or holds a key. -/
def SlotIs (bytes : List UInt8) : Option Key → Prop
  | none => bytes.length = keyLength ∧ bytes.head? = some 0
  | some k => bytes = k

/-- The keys that a log holds. -/
def LogHolds (log : LogKey) (ks : List Key) : Prop :=
  ∃ slot : Fin 2 → Option Key, (∀ i, SlotIs (log i) (slot i)) ∧ ([slot 0, slot 1].reduceOption).Perm ks

theorem strncmpZero_iff {n : Nat} {as bs : List UInt8} (whole : as.length = n) (same : bs.length = n) (text : 0 ∉ as) :
    strncmpZero n as bs = true ↔ as = bs := by
  induction n generalizing as bs with
  | zero => simp [strncmpZero, List.length_eq_zero_iff.mp whole, List.length_eq_zero_iff.mp same]
  | succ n ih =>
    obtain ⟨a, as, rfl⟩ := List.exists_cons_of_length_eq_add_one whole
    obtain ⟨b, bs, rfl⟩ := List.exists_cons_of_length_eq_add_one same
    simp only [List.mem_cons, not_or] at text
    have more := ih (by simpa using whole) (by simpa using same) text.2
    simp [strncmpZero, more, Ne.symm text.1]

theorem strncpy_key {dst : List UInt8} (room : dst.length = keyLength) (k : Key) : strncpy dst k keyLength = k := by
  have whole : k.1.take keyLength = k := List.take_of_length_le (Nat.le_of_eq k.2.1)
  have text : k.1.takeWhile (· ≠ 0) = k := by
    rw [List.takeWhile_eq_self_iff]
    intro x inside
    simpa using fun zero : x = 0 => k.2.2 (zero ▸ inside)
  simp only [strncpy, whole, text, k.2.1, Nat.sub_self, List.replicate_zero, List.append_nil]
  rw [List.drop_of_length_le (Nat.le_of_eq room), List.append_nil]

section
variable {bytes : List UInt8} {slot : Option Key} {log : LogKey} {ks : List Key} {k : Key}

theorem SlotIs.length (is : SlotIs bytes slot) : bytes.length = keyLength := by
  cases slot with
  | none => exact is.1
  | some k =>
    rw [show bytes = k from is]
    exact k.2.1

theorem SlotIs.head_iff (is : SlotIs bytes slot) : bytes.head? = some 0 ↔ slot = none := by
  cases slot with
  | none => simpa using is.2
  | some k =>
    obtain rfl : bytes = k := is
    refine ⟨fun free => ?_, fun none => by cases none⟩
    exact absurd (List.mem_of_mem_head? free) k.2.2

theorem SlotIs.strncmp_iff (is : SlotIs bytes slot) (k : Key) : strncmpZero keyLength k bytes = true ↔ slot = some k := by
  rw [strncmpZero_iff k.2.1 is.length k.2.2]
  cases slot with
  | none =>
    constructor
    · intro same
      have free := is.2
      rw [← same] at free
      exact absurd (List.mem_of_mem_head? free) k.2.2
    · intro none
      cases none
  | some k' =>
    obtain rfl : bytes = k' := is
    rw [Option.some.injEq, Subtype.ext_iff]
    exact eq_comm

/-- A slot after `strncpy`, -/
theorem SlotIs.write (is : SlotIs bytes slot) (k : Key) : SlotIs (strncpy bytes k keyLength) (some k) := strncpy_key is.length k

/-- and after `key[0] = '\0'`. -/
theorem SlotIs.clear (is : SlotIs bytes slot) : SlotIs (bytes.set 0 0) none := by
  have length := is.length
  refine ⟨by simpa using length, ?_⟩
  cases bytes with
  | nil => simp [keyLength] at length
  | cons b bs => rfl

theorem LogHolds.init : LogHolds (fun _ => List.replicate keyLength 0) [] :=
  ⟨fun _ => none, fun _ => ⟨by simp, by simp [keyLength]⟩, by simp [List.reduceOption]⟩

theorem LogHolds.perm {ks' : List Key} (holds : LogHolds log ks) (same : ks.Perm ks') : LogHolds log ks' := by
  obtain ⟨slot, is, keys⟩ := holds
  exact ⟨slot, is, keys.trans same⟩

/-- The log after a change of one slot. -/
theorem slots_update {slot : Fin 2 → Option Key} (is : ∀ i, SlotIs (log i) (slot i)) {i : Fin 2} {bytes : List UInt8} {x : Option Key}
    (now : SlotIs bytes x) (j : Fin 2) : SlotIs (Function.update log i bytes j) (Function.update slot i x j) := by
  by_cases same : j = i
  · subst same
    simpa using now
  · simpa [same] using is j

/-- **`mc_commit`** of a key that is held returns 1, -/
theorem LogHolds.commit_held (holds : LogHolds log ks) (held : k ∈ ks) : mcCommit log k = .ok (1, log) := by
  obtain ⟨slot, is, keys⟩ := holds
  have found := keys.mem_iff.mpr held
  have heads : ∀ i, (log i).head? = some 0 ↔ slot i = none := fun i => (is i).head_iff
  have texts : ∀ i, strncmpZero keyLength k (log i) = true ↔ slot i = some k := fun i => (is i).strncmp_iff k
  have slots : slot 0 = some k ∨ slot 1 = some k := by
    simpa [List.reduceOption_mem_iff, eq_comm] using found
  unfold mcCommit
  rcases slots with first | second
  · simp [mcCommitLoop, List.finRange_succ, heads, texts, first]
  · by_cases free : slot 0 = none
    · simp [mcCommitLoop, List.finRange_succ, heads, texts, second, free]
    · simp [mcCommitLoop, List.finRange_succ, heads, texts, second, free]

/-- and logs one that is not where there is room. -/
theorem LogHolds.commit_new (holds : LogHolds log ks) (new : k ∉ ks) (room : ks.length < 2) :
    ∃ log', mcCommit log k = .ok (0, log') ∧ LogHolds log' (k :: ks) := by
  obtain ⟨slot, is, keys⟩ := holds
  have heads : ∀ i, (log i).head? = some 0 ↔ slot i = none := fun i => (is i).head_iff
  have texts : ∀ i, strncmpZero keyLength k (log i) = true ↔ slot i = some k := fun i => (is i).strncmp_iff k
  have other : ∀ i, slot i ≠ some k := by
    intro i here
    refine new (keys.mem_iff.mp (List.reduceOption_mem_iff.mpr ?_))
    rw [← here]
    match i with
    | 0 => simp
    | 1 => simp
  have count := keys.length_eq
  -- the slot that is written is the last free one
  by_cases second : slot 1 = none
  · refine ⟨_, ?_, Function.update slot 1 (some k), slots_update is ((is 1).write k), ?_⟩
    · have free : mcCommitLoop log k (List.finRange 2) none = some (some 1) := by
        by_cases first : slot 0 = none
        · simp [mcCommitLoop, List.finRange_succ, heads, second, first]
        · simp [mcCommitLoop, List.finRange_succ, heads, texts, second, first, other]
      rw [mcCommit, free]
    · refine List.Perm.trans ?_ (keys.cons k)
      cases first : slot 0 with
      | none => simp [List.reduceOption, second, first]
      | some a => simpa [List.reduceOption, second, first] using List.Perm.swap k a []
  · by_cases first : slot 0 = none
    · refine ⟨_, ?_, Function.update slot 0 (some k), slots_update is ((is 0).write k), ?_⟩
      · have free : mcCommitLoop log k (List.finRange 2) none = some (some 0) := by
          simp [mcCommitLoop, List.finRange_succ, heads, texts, second, first, other]
        rw [mcCommit, free]
      · refine List.Perm.trans ?_ (keys.cons k)
        obtain ⟨b, full⟩ := Option.ne_none_iff_exists'.mp second
        simp [List.reduceOption, full, first]
    · obtain ⟨a, full⟩ := Option.ne_none_iff_exists'.mp first
      obtain ⟨b, full'⟩ := Option.ne_none_iff_exists'.mp second
      simp [List.reduceOption, full, full'] at count
      omega

/-- **`mc_update`** frees the slot of a key that is held. -/
theorem LogHolds.update (holds : LogHolds log ks) (held : k ∈ ks) : ∃ log', mcUpdate log k = .ok log' ∧ LogHolds log' (ks.erase k) := by
  obtain ⟨slot, is, keys⟩ := holds
  have found := keys.mem_iff.mpr held
  have texts : ∀ i, strncmpZero keyLength k (log i) = true ↔ slot i = some k := fun i => (is i).strncmp_iff k
  have slots : slot 0 = some k ∨ slot 1 = some k := by
    simpa [List.reduceOption_mem_iff, eq_comm] using found
  by_cases first : slot 0 = some k
  · refine ⟨_, ?_, Function.update slot 0 none, slots_update is (is 0).clear, ?_⟩
    · have at0 : ((List.finRange 2).find? fun i => strncmpZero keyLength k (log i)) = some 0 := by
        simp [List.finRange_succ, texts, first]
      rw [mcUpdate, at0]
    · refine List.Perm.trans ?_ (keys.erase k)
      simp [List.reduceOption, first]
  · have second := slots.resolve_left first
    refine ⟨_, ?_, Function.update slot 1 none, slots_update is (is 1).clear, ?_⟩
    · have at1 : ((List.finRange 2).find? fun i => strncmpZero keyLength k (log i)) = some 1 := by
        simp [List.finRange_succ, texts, first, second]
      rw [mcUpdate, at1]
    · refine List.Perm.trans ?_ (keys.erase k)
      cases other : slot 0 with
      | none => simp [List.reduceOption, second, other]
      | some a =>
        have differ : a.1 ≠ k.1 := fun same => first (by rw [other, Subtype.ext same])
        simp [List.reduceOption, second, other, differ]

end

end BiProject.TwoPc
