import BiProject.Lib.Ring
import Mathlib.Data.List.Basic
import Mathlib.Logic.Function.Basic

/-!
# A channel through a few buffers

A sender fills `k` buffers in turn and its queue tells which one; the receiver reads the message in the buffer itself.
Nothing tells the sender that a buffer is free. The messages that are under way are in buffers that follow each other,
so the next one is free while there are fewer than `k` of them, and then every message is handled once, in order and
with what it held when it was sent.
-/

namespace BiProject.Lib
set_option autoImplicit false

/-- `written` is the buffer the sender has filled and not sent yet, and `taken` the one the receiver has from the
queue and is not through with; `seen` tells whether it has handled it. The contents of the buffers at each sending and
at each handling are kept beside. -/
structure Mailbox (M : Type) where
  queue : List Nat
  buf : Nat → Option M
  idx : Nat
  written : Option Nat
  taken : Option Nat
  seen : Bool
  sent : List (Option M)
  handled : List (Option M)

namespace Mailbox
variable {M : Type} {k : Nat} {p : Mailbox M} {m : M}

def empty : Mailbox M := ⟨[], fun _ => none, 0, none, none, false, [], []⟩

/-- The sender fills the next buffer, -/
def write (k : Nat) (m : M) (p : Mailbox M) : Mailbox M :=
  { p with buf := Function.update p.buf (p.idx % k) (some m), idx := p.idx + 1, written := some (p.idx % k) }

/-- has this in it, -/
def draft (p : Mailbox M) : Option M := p.written.bind p.buf

/-- sends it, -/
def send (p : Mailbox M) : Mailbox M :=
  { p with queue := p.queue ++ p.written.toList, sent := p.sent ++ p.written.toList.map p.buf, written := none }

/-- or drops it. -/
def drop (p : Mailbox M) : Mailbox M := { p with written := none }

/-- The receiver takes a message, -/
def recv (p : Mailbox M) : Mailbox M := { p with queue := p.queue.tail, taken := p.queue.head?, seen := false }

/-- finds this in its buffer, -/
def content (p : Mailbox M) : Option M := p.taken.bind p.buf

/-- handles it, -/
def read (p : Mailbox M) : Mailbox M := { p with handled := p.handled ++ [p.content], seen := true }

/-- and is through with it. -/
def finish (p : Mailbox M) : Mailbox M := { p with taken := none, seen := false }

/-- The buffers that the receiver may still read, -/
def inUse (p : Mailbox M) : List Nat := p.taken.toList ++ p.queue

/-- what they hold, -/
def unfinished (p : Mailbox M) : List (Option M) := p.inUse.map p.buf

/-- those of the messages that are not handled, -/
def pending (p : Mailbox M) : List Nat := (if p.seen then [] else p.taken.toList) ++ p.queue

/-- and those that hold a message at all. -/
def flight (p : Mailbox M) : List Nat := p.inUse ++ p.written.toList

/-- **The buffers in use follow each other**, and what was sent is what was handled and what is pending. -/
structure Ok (k : Nat) (p : Mailbox M) : Prop where
  turns : ∃ first, first + p.flight.length = p.idx ∧ p.flight = (List.range' first p.flight.length).map (· % k)
  contents : p.sent = p.handled ++ p.pending.map p.buf

theorem Ok.empty : Ok k (Mailbox.empty : Mailbox M) := ⟨⟨0, rfl, rfl⟩, rfl⟩

/-- **The next buffer is free** while there are fewer messages than buffers. -/
theorem Ok.free (ok : Ok k p) (room : p.flight.length < k) : p.idx % k ∉ p.flight := by
  obtain ⟨first, count, turns⟩ := ok.turns
  intro inside
  rw [turns] at inside
  obtain ⟨n, member, same⟩ := List.mem_map.mp inside
  rw [List.mem_range'_1] at member
  have equal := Ring.absolute_inj (by omega : n ≤ p.idx) (by omega) same
  omega

theorem write_inUse (k : Nat) (m : M) (p : Mailbox M) : (p.write k m).inUse = p.inUse := rfl

theorem pending_subset (p : Mailbox M) : p.pending ⊆ p.inUse := by
  unfold pending inUse
  split
  · exact List.subset_append_right _ _
  · exact fun _ => id

/-- A message that is written changes none that is in use. -/
theorem Ok.write_buf (ok : Ok k p) (room : p.flight.length < k) (m : M) {b : Nat} (member : b ∈ p.inUse) : (p.write k m).buf b = p.buf b := by
  apply Function.update_of_ne
  rintro rfl
  exact ok.free room (List.mem_append_left _ member)

theorem Ok.write_unfinished (ok : Ok k p) (room : p.flight.length < k) (m : M) : (p.write k m).unfinished = p.unfinished := by
  unfold unfinished
  rw [write_inUse]
  exact List.map_congr_left fun b member => ok.write_buf room m member

theorem Ok.write_content (ok : Ok k p) (room : p.flight.length < k) (m : M) : (p.write k m).content = p.content := by
  change p.taken.bind (p.write k m).buf = p.taken.bind p.buf
  cases taken : p.taken with
  | none => rfl
  | some b => exact ok.write_buf room m (List.mem_append_left _ (by simp [taken]))

theorem write_draft (k : Nat) (m : M) (p : Mailbox M) : (p.write k m).draft = some m := by
  simp [draft, write]

theorem Ok.write (ok : Ok k p) (room : p.flight.length < k) (ready : p.written = none) (m : M) : Ok k (p.write k m) := by
  obtain ⟨first, count, turns⟩ := ok.turns
  have flight : (p.write k m).flight = p.flight ++ [p.idx % k] := by
    simp [Mailbox.flight, Mailbox.write, Mailbox.inUse, ready]
  constructor
  · refine ⟨first, ?_, ?_⟩
    · rw [flight, List.length_append, List.length_singleton]
      change _ = p.idx + 1
      omega
    · rw [flight, List.length_append, List.length_singleton, List.range'_concat, List.map_append, ← turns]
      simp [count]
  · change p.sent = p.handled ++ p.pending.map (p.write k m).buf
    rw [ok.contents]
    congr 1
    exact List.map_congr_left fun b member => (ok.write_buf room m (p.pending_subset member)).symm

theorem Ok.send (ok : Ok k p) : Ok k p.send := by
  have flight : p.send.flight = p.flight := by
    simp [Mailbox.flight, Mailbox.send, Mailbox.inUse]
  constructor
  · rw [flight]
    exact ok.turns
  · have pending : p.send.pending = p.pending ++ p.written.toList := by
      change (if p.seen then [] else p.taken.toList) ++ (p.queue ++ p.written.toList) = _
      rw [← List.append_assoc]
      rfl
    rw [pending, List.map_append, ← List.append_assoc]
    change p.sent ++ p.written.toList.map p.buf = (p.handled ++ p.pending.map p.buf) ++ p.written.toList.map p.buf
    rw [ok.contents]

theorem recv_inUse (free : p.taken = none) : p.recv.inUse = p.inUse := by
  unfold inUse recv
  rw [free]
  cases p.queue <;> rfl

theorem recv_unfinished (free : p.taken = none) : p.recv.unfinished = p.unfinished := by
  unfold unfinished
  rw [recv_inUse free]
  rfl

theorem Ok.recv (ok : Ok k p) (free : p.taken = none) : Ok k p.recv := by
  have flight : p.recv.flight = p.flight := by
    unfold Mailbox.flight
    rw [recv_inUse free]
    rfl
  constructor
  · rw [flight]
    exact ok.turns
  · have pending : p.recv.pending = p.pending := by
      unfold Mailbox.pending Mailbox.recv
      rw [free]
      cases p.queue <;> simp
    rw [pending]
    exact ok.contents

theorem Ok.read (ok : Ok k p) {b : Nat} (taken : p.taken = some b) (unseen : p.seen = false) : Ok k p.read := by
  refine ⟨ok.turns, ?_⟩
  have contents := ok.contents
  simp only [Mailbox.pending, unseen, taken] at contents
  simp [Mailbox.pending, Mailbox.read, Mailbox.content, taken, contents]

/-- The one that was taken is the oldest. -/
theorem Ok.finish (ok : Ok k p) (handled : p.seen = true) : Ok k p.finish := by
  obtain ⟨first, count, turns⟩ := ok.turns
  constructor
  · cases taken : p.taken with
    | none =>
      have flight : p.finish.flight = p.flight := by
        simp [Mailbox.flight, Mailbox.finish, Mailbox.inUse, taken]
      rw [flight]
      exact ⟨first, count, turns⟩
    | some b =>
      have flight : p.flight = b :: p.finish.flight := by
        simp [Mailbox.flight, Mailbox.finish, Mailbox.inUse, taken]
      rw [flight, List.length_cons, List.range'_succ, List.map_cons, List.cons.injEq] at turns
      refine ⟨first + 1, ?_, turns.2⟩
      rw [flight, List.length_cons] at count
      change _ = p.idx
      omega
  · have contents := ok.contents
    simp only [Mailbox.pending, handled] at contents
    simpa [Mailbox.pending, Mailbox.finish] using contents

theorem unfinished_cons (here : p.content = some m) : p.unfinished = some m :: p.finish.unfinished := by
  obtain ⟨b, taken, read⟩ := Option.bind_eq_some_iff.mp here
  simp [unfinished, inUse, finish, taken, read]

theorem send_unfinished (drafted : p.draft = some m) : p.send.unfinished = p.unfinished ++ [some m] := by
  obtain ⟨b, written, here⟩ := Option.bind_eq_some_iff.mp drafted
  simp [unfinished, inUse, send, written, here]

theorem length_unfinished (p : Mailbox M) : p.unfinished.length = p.inUse.length := List.length_map _

theorem queue_length_le (p : Mailbox M) : p.queue.length ≤ p.unfinished.length := by
  rw [length_unfinished, inUse, List.length_append]
  omega

end Mailbox

end BiProject.Lib
