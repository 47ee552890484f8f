import BiProject.TwoPc.Buffers
import Mathlib.Data.Option.Basic

/-!
# The boxes of the nodes

What a node reads and what it sends is in the boxes of its pairs, and every step of the nodes is one of the steps of
the boxes. A message may be written while the pair has at most one that its receiver is not through with.
-/

namespace BiProject.TwoPc
set_option autoImplicit false
open BiProject.McServer BiProject.Lib

section
variable {hash : List UInt8 → Nat} {σ σ' : Buffered hash} {n src dst : Node} {s c : Side} {m : McMsg}

/-- What the nodes are reading and sending is in their boxes. -/
structure Boxes (σ : Buffered hash) : Prop where
  ok : ∀ src dst, Mailbox.Ok 2 (σ.box src dst)
  taken : ∀ src dst, (σ.box src dst).taken ≠ none ↔ σ.reading dst = some src
  written : ∀ src dst, (σ.box src dst).written ≠ none ↔ σ.sending src = some dst
  seen : ∀ src dst, (σ.box src dst).seen = true ↔ σ.reading dst = some src ∧ σ.sending dst ≠ none

@[simp] theorem onBox_box (σ : Buffered hash) (src dst : Node) (f : Mailbox McMsg → Mailbox McMsg) (a b : Node) :
    (σ.onBox src dst f).box a b = if a = src ∧ b = dst then f (σ.box a b) else σ.box a b := rfl

@[simp] theorem onBox_srv (σ : Buffered hash) (src dst : Node) (f : Mailbox McMsg → Mailbox McMsg) : (σ.onBox src dst f).srv = σ.srv := rfl
@[simp] theorem onBox_client (σ : Buffered hash) (src dst : Node) (f : Mailbox McMsg → Mailbox McMsg) : (σ.onBox src dst f).client = σ.client := rfl
@[simp] theorem onBox_stage (σ : Buffered hash) (src dst : Node) (f : Mailbox McMsg → Mailbox McMsg) : (σ.onBox src dst f).stage = σ.stage := rfl
@[simp] theorem onBox_reading (σ : Buffered hash) (src dst : Node) (f : Mailbox McMsg → Mailbox McMsg) :
    (σ.onBox src dst f).reading = σ.reading := rfl
@[simp] theorem onBox_sending (σ : Buffered hash) (src dst : Node) (f : Mailbox McMsg → Mailbox McMsg) :
    (σ.onBox src dst f).sending = σ.sending := rfl
@[simp] theorem onBox_failed (σ : Buffered hash) (src dst : Node) (f : Mailbox McMsg → Mailbox McMsg) : (σ.onBox src dst f).failed = σ.failed := rfl

@[simp] theorem setSending_srv (σ : Buffered hash) (n : Node) (x : Option Node) : (σ.setSending n x).srv = σ.srv := rfl
@[simp] theorem setSending_client (σ : Buffered hash) (n : Node) (x : Option Node) : (σ.setSending n x).client = σ.client := rfl
@[simp] theorem setSending_stage (σ : Buffered hash) (n : Node) (x : Option Node) : (σ.setSending n x).stage = σ.stage := rfl
@[simp] theorem setSending_reading (σ : Buffered hash) (n : Node) (x : Option Node) : (σ.setSending n x).reading = σ.reading := rfl
@[simp] theorem setSending_sending (σ : Buffered hash) (n : Node) (x : Option Node) :
    (σ.setSending n x).sending = Function.update σ.sending n x := rfl
@[simp] theorem setSending_failed (σ : Buffered hash) (n : Node) (x : Option Node) : (σ.setSending n x).failed = σ.failed := rfl
@[simp] theorem setSending_box (σ : Buffered hash) (n : Node) (x : Option Node) : (σ.setSending n x).box = σ.box := rfl

@[simp] theorem setReading_srv (σ : Buffered hash) (n : Node) (x : Option Node) : (σ.setReading n x).srv = σ.srv := rfl
@[simp] theorem setReading_client (σ : Buffered hash) (n : Node) (x : Option Node) : (σ.setReading n x).client = σ.client := rfl
@[simp] theorem setReading_stage (σ : Buffered hash) (n : Node) (x : Option Node) : (σ.setReading n x).stage = σ.stage := rfl
@[simp] theorem setReading_reading (σ : Buffered hash) (n : Node) (x : Option Node) :
    (σ.setReading n x).reading = Function.update σ.reading n x := rfl
@[simp] theorem setReading_sending (σ : Buffered hash) (n : Node) (x : Option Node) : (σ.setReading n x).sending = σ.sending := rfl
@[simp] theorem setReading_failed (σ : Buffered hash) (n : Node) (x : Option Node) : (σ.setReading n x).failed = σ.failed := rfl
@[simp] theorem setReading_box (σ : Buffered hash) (n : Node) (x : Option Node) : (σ.setReading n x).box = σ.box := rfl

@[simp] theorem bufSetSrv_srv (σ : Buffered hash) (s : Side) (st : Srv hash) : (σ.setSrv s st).srv = Function.update σ.srv s st := rfl
@[simp] theorem bufSetSrv_client (σ : Buffered hash) (s : Side) (st : Srv hash) : (σ.setSrv s st).client = σ.client := rfl
@[simp] theorem bufSetSrv_stage (σ : Buffered hash) (s : Side) (st : Srv hash) : (σ.setSrv s st).stage = σ.stage := rfl
@[simp] theorem bufSetSrv_reading (σ : Buffered hash) (s : Side) (st : Srv hash) : (σ.setSrv s st).reading = σ.reading := rfl
@[simp] theorem bufSetSrv_sending (σ : Buffered hash) (s : Side) (st : Srv hash) : (σ.setSrv s st).sending = σ.sending := rfl
@[simp] theorem bufSetSrv_failed (σ : Buffered hash) (s : Side) (st : Srv hash) : (σ.setSrv s st).failed = σ.failed := rfl
@[simp] theorem bufSetSrv_box (σ : Buffered hash) (s : Side) (st : Srv hash) : (σ.setSrv s st).box = σ.box := rfl

@[simp] theorem write_srv (σ : Buffered hash) (n dst : Node) (m : McMsg) : (σ.write n dst m).srv = σ.srv := rfl
@[simp] theorem write_client (σ : Buffered hash) (n dst : Node) (m : McMsg) : (σ.write n dst m).client = σ.client := rfl
@[simp] theorem write_stage (σ : Buffered hash) (n dst : Node) (m : McMsg) : (σ.write n dst m).stage = σ.stage := rfl
@[simp] theorem write_reading (σ : Buffered hash) (n dst : Node) (m : McMsg) : (σ.write n dst m).reading = σ.reading := rfl
@[simp] theorem write_sending (σ : Buffered hash) (n dst : Node) (m : McMsg) :
    (σ.write n dst m).sending = Function.update σ.sending n (some dst) := rfl
@[simp] theorem write_failed (σ : Buffered hash) (n dst : Node) (m : McMsg) : (σ.write n dst m).failed = σ.failed := rfl

/-- Nothing is at the start. -/
theorem Boxes.init : Boxes (Buffered.init : Buffered hash) := by
  refine ⟨fun _ _ => Mailbox.Ok.empty, ?_, ?_, ?_⟩ <;> simp [Buffered.init, Mailbox.empty]

/-- Who sends nothing has written nothing. -/
theorem Boxes.written_none (boxes : Boxes σ) (idle : σ.sending n = none) (dst : Node) : (σ.box n dst).written = none := by
  by_contra busy
  rw [(boxes.written n dst).mp busy] at idle
  cases idle

/-- Who reads nothing has taken nothing, -/
theorem Boxes.taken_none (boxes : Boxes σ) (idle : σ.reading n = none) (src : Node) : (σ.box src n).taken = none := by
  by_contra busy
  rw [(boxes.taken src n).mp busy] at idle
  cases idle

/-- and who reads a message has taken it. -/
theorem Boxes.taken_some (boxes : Boxes σ) (reading : σ.reading n = some src) : ∃ b, (σ.box src n).taken = some b :=
  Option.ne_none_iff_exists'.mp ((boxes.taken src n).mpr reading)

/-- What is under way is in the queue. -/
theorem Boxes.flight_eq (boxes : Boxes σ) (idle : σ.sending n = none) (dst : Node) :
    (σ.box n dst).flight.length = (σ.box n dst).unfinished.length := by
  rw [Mailbox.flight, boxes.written_none idle dst, Mailbox.length_unfinished]
  simp

/-- Nothing is read twice. -/
theorem Boxes.unseen (boxes : Boxes σ) (idle : σ.sending n = none) (src : Node) : (σ.box src n).seen = false := by
  by_contra seen
  exact ((boxes.seen src n).mp (by simpa using seen)).2 idle

/-- A client writes a message. -/
theorem Boxes.write (boxes : Boxes σ) (idle : σ.sending n = none) (resting : σ.reading n = none)
    (room : (σ.box n dst).unfinished.length ≤ 1) (m : McMsg) : Boxes (σ.write n dst m) := by
  have short : (σ.box n dst).flight.length < 2 := by
    rw [boxes.flight_eq idle]
    omega
  constructor
  · intro a b
    by_cases here : a = n ∧ b = dst
    · obtain ⟨rfl, rfl⟩ := here
      simpa [Buffered.write] using (boxes.ok a b).write short (boxes.written_none idle b) m
    · simpa [Buffered.write, here] using boxes.ok a b
  · intro a b
    have before := boxes.taken a b
    simp only [Buffered.write, setSending_box, onBox_box, setSending_reading, onBox_reading]
    grind [Mailbox.write]
  · intro a b
    have before := boxes.written a b
    have ready := boxes.written_none idle b
    simp only [Buffered.write, setSending_box, onBox_box, setSending_sending, onBox_sending]
    grind [Mailbox.write, Function.update_apply]
  · intro a b
    have before := boxes.seen a b
    simp only [Buffered.write, setSending_box, onBox_box, setSending_sending, onBox_sending, setSending_reading, onBox_reading]
    grind [Mailbox.write, Function.update_apply]

/-- A server handles the message it took and writes one. -/
theorem Boxes.handle (boxes : Boxes σ) (idle : σ.sending n = none) (reading : σ.reading n = some src) (other : src ≠ n)
    (room : (σ.box n dst).unfinished.length ≤ 1) (m : McMsg) : Boxes ((σ.onBox src n Mailbox.read).write n dst m) := by
  have short : (σ.box n dst).flight.length < 2 := by
    rw [boxes.flight_eq idle]
    omega
  obtain ⟨b₀, taken⟩ := boxes.taken_some reading
  constructor
  · intro a b
    simp only [Buffered.write, setSending_box, onBox_box]
    by_cases first : a = n ∧ b = dst
    · obtain ⟨rfl, rfl⟩ := first
      simpa [Ne.symm other] using (boxes.ok a b).write short (boxes.written_none idle b) m
    · by_cases second : a = src ∧ b = n
      · obtain ⟨rfl, rfl⟩ := second
        simpa [other] using (boxes.ok a b).read taken (boxes.unseen idle a)
      · simpa [first, second] using boxes.ok a b
  · intro a b
    have before := boxes.taken a b
    simp only [Buffered.write, setSending_box, onBox_box, setSending_reading, onBox_reading]
    grind [Mailbox.write, Mailbox.read]
  · intro a b
    have before := boxes.written a b
    have ready := boxes.written_none idle b
    simp only [Buffered.write, setSending_box, onBox_box, setSending_sending, onBox_sending]
    grind [Mailbox.write, Mailbox.read, Function.update_apply]
  · intro a b
    have before := boxes.seen a b
    have unseen := boxes.unseen idle a
    simp only [Buffered.write, setSending_box, onBox_box, setSending_sending, onBox_sending, setSending_reading, onBox_reading]
    grind [Mailbox.write, Mailbox.read, Function.update_apply]

/-- A client sends what it wrote. -/
theorem Boxes.send (boxes : Boxes σ) (sending : σ.sending n = some dst) (resting : σ.reading n = none) :
    Boxes ((σ.onBox n dst Mailbox.send).setSending n none) := by
  constructor
  · intro a b
    by_cases here : a = n ∧ b = dst
    · obtain ⟨rfl, rfl⟩ := here
      simpa using (boxes.ok a b).send
    · simpa [here] using boxes.ok a b
  · intro a b
    have before := boxes.taken a b
    simp only [setSending_box, onBox_box, setSending_reading, onBox_reading]
    grind [Mailbox.send]
  · intro a b
    have before := boxes.written a b
    simp only [setSending_box, onBox_box, setSending_sending, onBox_sending]
    grind [Mailbox.send, Function.update_apply]
  · intro a b
    have before := boxes.seen a b
    simp only [setSending_box, onBox_box, setSending_sending, onBox_sending, setSending_reading, onBox_reading]
    grind [Mailbox.send, Function.update_apply]

/-- A server sends what it wrote, and is through with what it read. -/
theorem Boxes.turn (boxes : Boxes σ) (sending : σ.sending n = some dst) (reading : σ.reading n = some src) (other : src ≠ n) :
    Boxes ((((σ.onBox n dst Mailbox.send).onBox src n Mailbox.finish).setReading n none).setSending n none) := by
  have seen := (boxes.seen src n).mpr ⟨reading, by simp [sending]⟩
  constructor
  · intro a b
    simp only [setSending_box, setReading_box, onBox_box]
    by_cases first : a = n ∧ b = dst
    · obtain ⟨rfl, rfl⟩ := first
      simpa [Ne.symm other] using (boxes.ok a b).send
    · by_cases second : a = src ∧ b = n
      · obtain ⟨rfl, rfl⟩ := second
        simpa [other] using (boxes.ok a b).finish seen
      · simpa [first, second] using boxes.ok a b
  · intro a b
    have before := boxes.taken a b
    simp only [setSending_box, setReading_box, onBox_box, setSending_reading, setReading_reading, onBox_reading]
    grind [Mailbox.send, Mailbox.finish, Function.update_apply]
  · intro a b
    have before := boxes.written a b
    simp only [setSending_box, setReading_box, onBox_box, setSending_sending, setReading_sending, onBox_sending]
    grind [Mailbox.send, Mailbox.finish, Function.update_apply]
  · intro a b
    have before := boxes.seen a b
    simp only [setSending_box, setReading_box, onBox_box, setSending_sending, setReading_sending, onBox_sending, setSending_reading,
      setReading_reading, onBox_reading]
    grind [Mailbox.send, Mailbox.finish, Function.update_apply]

/-- A node takes a message. -/
theorem Boxes.recv (boxes : Boxes σ) (idle : σ.sending n = none) (resting : σ.reading n = none) (some_ : (σ.box src n).queue ≠ []) :
    Boxes ((σ.onBox src n Mailbox.recv).setReading n (some src)) := by
  have head : (σ.box src n).queue.head? ≠ none := by simpa using some_
  constructor
  · intro a b
    by_cases here : a = src ∧ b = n
    · obtain ⟨rfl, rfl⟩ := here
      simpa using (boxes.ok a b).recv (boxes.taken_none resting a)
    · simpa [here] using boxes.ok a b
  · intro a b
    have before := boxes.taken a b
    simp only [setReading_box, onBox_box, setReading_reading, onBox_reading]
    grind [Mailbox.recv, Function.update_apply]
  · intro a b
    have before := boxes.written a b
    simp only [setReading_box, onBox_box, setReading_sending, onBox_sending]
    grind [Mailbox.recv, Function.update_apply]
  · intro a b
    have before := boxes.seen a b
    simp only [setReading_box, onBox_box, setReading_sending, onBox_sending, setReading_reading, onBox_reading]
    grind [Mailbox.recv, Function.update_apply]

/-- A node handles the message it took and sends none. -/
theorem Boxes.finish (boxes : Boxes σ) (idle : σ.sending n = none) (reading : σ.reading n = some src) :
    Boxes ((σ.onBox src n fun p => p.read.finish).setReading n none) := by
  obtain ⟨b₀, taken⟩ := boxes.taken_some reading
  constructor
  · intro a b
    by_cases here : a = src ∧ b = n
    · obtain ⟨rfl, rfl⟩ := here
      simpa using ((boxes.ok a b).read taken (boxes.unseen idle a)).finish rfl
    · simpa [here] using boxes.ok a b
  · intro a b
    have before := boxes.taken a b
    simp only [setReading_box, onBox_box, setReading_reading, onBox_reading]
    grind [Mailbox.read, Mailbox.finish, Function.update_apply]
  · intro a b
    have before := boxes.written a b
    simp only [setReading_box, onBox_box, setReading_sending, onBox_sending]
    grind [Mailbox.read, Mailbox.finish, Function.update_apply]
  · intro a b
    have before := boxes.seen a b
    simp only [setReading_box, onBox_box, setReading_sending, onBox_sending, setReading_reading, onBox_reading]
    grind [Mailbox.read, Mailbox.finish, Function.update_apply]

end

end BiProject.TwoPc
