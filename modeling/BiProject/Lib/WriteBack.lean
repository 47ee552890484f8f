import Mathlib.Logic.Function.Basic

/-!
# Lines of memory and caches that are not coherent

A line has a value in memory and, at each node, maybe a copy of its own, with whether it was stored to since it came from
memory or went there. A node sees its copy as long as it has one. No copy is told of what the others do, and a copy that
was stored to may go to memory at any time.
-/

namespace BiProject.Lib
set_option autoImplicit false

/-- A line: what memory has, and what each node has of it, with whether that was stored to. -/
structure Line (N α : Type) where
  mem : α
  copy : N → Option (α × Bool)

namespace Line
variable {N α : Type} {l : Line N α} {n m : N} {v : α}

/-- A line that no node has. -/
def fresh (v : α) : Line N α := ⟨v, fun _ => none⟩

/-- What a node sees. -/
def view (l : Line N α) (n : N) : α :=
  match l.copy n with
  | some (v, _) => v
  | none => l.mem

/-- A node has not stored to its copy. -/
def Clean (l : Line N α) (n : N) : Prop := ∀ v, l.copy n ≠ some (v, true)

/-- A node that has a copy sees it, -/
theorem view_of_copy {d : Bool} (here : l.copy n = some (v, d)) : l.view n = v := by
  simp [view, here]

/-- and one that has none sees memory. -/
theorem view_of_none (none : l.copy n = none) : l.view n = l.mem := by
  simp [view, none]

/-- A copy that was not stored to is clean, -/
theorem clean_of_copy (here : l.copy n = some (v, false)) : l.Clean n := by
  intro w there
  rw [here] at there
  cases there

/-- and so is a line that the node does not have. -/
theorem clean_of_none (none : l.copy n = none) : l.Clean n := by
  intro w there
  rw [none] at there
  cases there

/-! ## A line that has settled -/

/-- What a node has of a line, if anything, is a clean copy of `v`. -/
def Fresh (l : Line N α) (n : N) (v : α) : Prop := ∀ w d, l.copy n = some (w, d) → w = v ∧ d = false

/-- Memory has `v`, and a node sees nothing else and has nothing to write back. -/
def Settled (l : Line N α) (n : N) (v : α) : Prop := l.mem = v ∧ l.Fresh n v

/-- A node has stored `v`, or the line has settled on it. -/
def Holds (l : Line N α) (n : N) (v : α) : Prop := l.copy n = some (v, true) ∨ l.Settled n v

/-- What is fresh is clean, -/
theorem Fresh.clean (fresh : l.Fresh n v) : l.Clean n := by
  intro w here
  cases (fresh w true here).2

/-- and it is fresh as long as the node's copy is the same, -/
theorem Fresh.congr {l' : Line N α} (fresh : l.Fresh n v) (copy : l'.copy n = l.copy n) : l'.Fresh n v := by
  intro w d here
  exact fresh w d (copy ▸ here)

/-- also when the node has none. -/
theorem fresh_of_none (none : l.copy n = none) : l.Fresh n v := by
  intro w d here
  rw [none] at here
  cases here

/-- A node sees what the line has settled on. -/
theorem Settled.view (settled : l.Settled n v) : l.view n = v := by
  cases here : l.copy n with
  | some c => rw [view_of_copy here, (settled.2 c.1 c.2 here).1]
  | none => rw [view_of_none here, settled.1]

/-- Whatever memory and the nodes have of a line has a property. -/
def Only (l : Line N α) (P : α → Prop) : Prop := P l.mem ∧ ∀ n v d, l.copy n = some (v, d) → P v

/-- What all copies and memory have, each node sees. -/
theorem Only.view {P : α → Prop} (only : l.Only P) (n : N) : P (l.view n) := by
  cases here : l.copy n with
  | some c =>
    rw [view_of_copy here]
    exact only.2 n c.1 c.2 here
  | none =>
    rw [view_of_none here]
    exact only.1

/-! ## What a node does -/

variable [DecidableEq N]

/-- A node's copy is replaced. -/
def set (l : Line N α) (n : N) (c : Option (α × Bool)) : Line N α := { l with copy := Function.update l.copy n c }

/-- A load. -/
def load (l : Line N α) (n : N) : Line N α :=
  match l.copy n with
  | some _ => l
  | none => l.set n (some (l.mem, false))

/-- A store of a part of the line. -/
def store (l : Line N α) (n : N) (f : α → α) : Line N α := l.set n (some (f (l.view n), true))

/-- A write-back that keeps the copy. -/
def clwb (l : Line N α) (n : N) : Line N α :=
  match l.copy n with
  | some (v, _) => { l.set n (some (v, false)) with mem := v }
  | none => l

/-- A write-back, if the copy was stored to, that drops it. -/
def clflush (l : Line N α) (n : N) : Line N α :=
  match l.copy n with
  | some (v, true) => { l.set n none with mem := v }
  | _ => l.set n none

/-- A write-back on the hardware's own. -/
def writeBack (l : Line N α) (n : N) : Line N α :=
  match l.copy n with
  | some (_, true) => l.clwb n
  | _ => l

@[simp] theorem set_mem (l : Line N α) (n : N) (c : Option (α × Bool)) : (l.set n c).mem = l.mem := rfl
@[simp] theorem set_self (l : Line N α) (n : N) (c : Option (α × Bool)) : (l.set n c).copy n = c := Function.update_self ..
@[simp] theorem set_other (l : Line N α) (c : Option (α × Bool)) (other : m ≠ n) : (l.set n c).copy m = l.copy m :=
  Function.update_of_ne other ..

/-! ## Other nodes -/

@[simp] theorem load_other (l : Line N α) (other : m ≠ n) : (l.load n).copy m = l.copy m := by
  unfold load
  split <;> simp [other]

@[simp] theorem store_other (l : Line N α) (f : α → α) (other : m ≠ n) : (l.store n f).copy m = l.copy m := by
  simp [store, other]

@[simp] theorem clwb_other (l : Line N α) (other : m ≠ n) : (l.clwb n).copy m = l.copy m := by
  unfold clwb
  split
  · exact set_other l _ other
  · rfl

@[simp] theorem clflush_other (l : Line N α) (other : m ≠ n) : (l.clflush n).copy m = l.copy m := by
  unfold clflush
  split
  · exact set_other l _ other
  · exact set_other l _ other

@[simp] theorem writeBack_other (l : Line N α) (other : m ≠ n) : (l.writeBack n).copy m = l.copy m := by
  unfold writeBack
  split
  · exact clwb_other l other
  · rfl

/-! ## The node itself -/

@[simp] theorem load_mem (l : Line N α) (n : N) : (l.load n).mem = l.mem := by
  unfold load
  split <;> rfl

/-- After a load the node has a copy of what it saw, clean if it was clean. -/
theorem load_copy (l : Line N α) (n : N) : ∃ d, (l.load n).copy n = some (l.view n, d) ∧ (l.Clean n → d = false) := by
  cases here : l.copy n with
  | some c =>
    obtain ⟨v, d⟩ := c
    refine ⟨d, by simp [load, view, here], fun clean => ?_⟩
    cases d
    · rfl
    · exact absurd here (clean v)
  | none => exact ⟨false, by simp [load, view, here], fun _ => rfl⟩

@[simp] theorem store_mem (l : Line N α) (n : N) (f : α → α) : (l.store n f).mem = l.mem := rfl

/-- After a store the node has what it stored to what it saw, to be written back. -/
@[simp] theorem store_copy (l : Line N α) (n : N) (f : α → α) : (l.store n f).copy n = some (f (l.view n), true) := set_self ..

/-- After a write-back memory has what the node sees. -/
theorem clwb_mem (l : Line N α) (n : N) : (l.clwb n).mem = l.view n := by
  unfold clwb view
  split <;> rfl

/-- A write-back leaves the copy clean, -/
theorem clwb_copy {d : Bool} (here : l.copy n = some (v, d)) : (l.clwb n).copy n = some (v, false) := by
  simp [clwb, here]

/-- and does nothing where there is none. -/
theorem clwb_none (none : l.copy n = none) : l.clwb n = l := by
  simp [clwb, none]

/-- After a flush the node has no copy, -/
theorem clflush_copy (l : Line N α) (n : N) : (l.clflush n).copy n = none := by
  unfold clflush
  split
  · exact set_self l n none
  · exact set_self l n none

/-- and memory is as before if the copy was clean. -/
theorem clflush_clean (clean : l.Clean n) : (l.clflush n).mem = l.mem := by
  unfold clflush
  split
  · rename_i v here
    exact absurd here (clean v)
  · rfl

/-- The hardware does not write back a clean copy, -/
theorem writeBack_clean (clean : l.Clean n) : l.writeBack n = l := by
  unfold writeBack
  split
  · rename_i v here
    exact absurd here (clean v)
  · rfl

/-- and it leaves a copy with its value. -/
theorem writeBack_copy {d : Bool} (here : l.copy n = some (v, d)) : ∃ d', (l.writeBack n).copy n = some (v, d') := by
  cases d with
  | true => exact ⟨false, by simp [writeBack, here, clwb_copy here]⟩
  | false => exact ⟨false, by simp [writeBack, here]⟩

/-- On its own the hardware changes at most what memory has, to what a node sees. -/
theorem writeBack_cases (l : Line N α) (n : N) :
    l.writeBack n = l ∨ ∃ v, l.copy n = some (v, true) ∧ (l.writeBack n).mem = v ∧ (l.writeBack n).copy n = some (v, false) := by
  unfold writeBack
  split
  · rename_i v here
    refine Or.inr ⟨v, here, ?_, clwb_copy here⟩
    rw [clwb_mem, view_of_copy here]
  · exact Or.inl rfl

/-! ## What a line may have -/

/-- A property of all copies holds on after a copy is replaced by one that has it, -/
theorem Only.set {P : α → Prop} (only : l.Only P) (n : N) {c : Option (α × Bool)} (copy : ∀ v d, c = some (v, d) → P v) : (l.set n c).Only P := by
  refine ⟨only.1, fun m v d here => ?_⟩
  by_cases same : m = n
  · subst same
    rw [set_self] at here
    exact copy v d here
  · rw [set_other l c same] at here
    exact only.2 m v d here

/-- after a store of a value that has it, -/
theorem Only.store {P : α → Prop} (only : l.Only P) (n : N) {f : α → α} (value : P (f (l.view n))) : (l.store n f).Only P := by
  apply only.set n
  intro v d here
  cases here
  exact value

/-- after a load, -/
theorem Only.load {P : α → Prop} (only : l.Only P) (n : N) : (l.load n).Only P := by
  unfold Line.load
  split
  · exact only
  · apply only.set n
    intro v d here
    cases here
    exact only.1

/-- a write-back, -/
theorem Only.clwb {P : α → Prop} (only : l.Only P) (n : N) : (l.clwb n).Only P := by
  unfold Line.clwb
  split
  · rename_i v d here
    have value := only.2 n v d here
    refine ⟨value, (only.set n ?_).2⟩
    intro w d' there
    cases there
    exact value
  · exact only

/-- a flush, -/
theorem Only.clflush {P : α → Prop} (only : l.Only P) (n : N) : (l.clflush n).Only P := by
  have dropped : (l.set n none).Only P := only.set n fun v d here => by cases here
  unfold Line.clflush
  split
  · rename_i v here
    exact ⟨only.2 n v true here, dropped.2⟩
  · exact dropped

/-- and a write-back on the hardware's own. -/
theorem Only.writeBack {P : α → Prop} (only : l.Only P) (n : N) : (l.writeBack n).Only P := by
  unfold Line.writeBack
  split
  · exact only.clwb n
  · exact only

/-- Whichever node loads, a clean copy stays clean, -/
theorem Clean.load (clean : l.Clean n) (m : N) : (l.load m).Clean n := by
  intro v here
  by_cases same : n = m
  · subst same
    obtain ⟨d, copy, rest⟩ := l.load_copy n
    rw [copy, rest clean] at here
    cases here
  · rw [load_other l same] at here
    exact clean v here

/-- whichever node flushes, -/
theorem Clean.clflush (clean : l.Clean n) (m : N) : (l.clflush m).Clean n := by
  intro v here
  by_cases same : n = m
  · subst same
    rw [clflush_copy] at here
    cases here
  · rw [clflush_other l same] at here
    exact clean v here

/-- and whatever is written back. -/
theorem Clean.writeBack (clean : l.Clean n) (m : N) : (l.writeBack m).Clean n := by
  intro v here
  by_cases same : n = m
  · subst same
    rw [writeBack_clean clean] at here
    exact clean v here
  · rw [writeBack_other l same] at here
    exact clean v here

/-! ## What keeps a line settled

A clean node changes memory neither on its own nor by a flush. -/

/-- A load brings in what memory has. -/
theorem Fresh.load (fresh : l.Fresh n v) (mem : l.mem = v) (m : N) : (l.load m).Fresh n v := by
  by_cases same : n = m
  · subst same
    cases here : l.copy n with
    | some c =>
      have unchanged : l.load n = l := by simp [Line.load, here]
      rw [unchanged]
      exact fresh
    | none =>
      intro w d there
      simp only [Line.load, here, set_self, Option.some.injEq, Prod.mk.injEq] at there
      exact ⟨there.1.symm.trans mem, there.2.symm⟩
  · exact fresh.congr (load_other l same)

/-- A flush leaves what is fresh so. -/
theorem Fresh.clflush (fresh : l.Fresh n v) (m : N) : (l.clflush m).Fresh n v := by
  by_cases same : n = m
  · subst same
    exact fresh_of_none (clflush_copy l n)
  · exact fresh.congr (clflush_other l same)

/-- A line stays settled when any node loads it, -/
theorem Settled.load (settled : l.Settled n v) (m : N) : (l.load m).Settled n v :=
  ⟨(load_mem l m).trans settled.1, settled.2.load settled.1 m⟩

/-- when the hardware writes back a clean copy, -/
theorem Settled.writeBack (settled : l.Settled n v) {m : N} (clean : l.Clean m) : (l.writeBack m).Settled n v := by
  rw [writeBack_clean clean]
  exact settled

/-- and when a node flushes a clean copy. -/
theorem Settled.clflush (settled : l.Settled n v) {m : N} (clean : l.Clean m) : (l.clflush m).Settled n v :=
  ⟨(clflush_clean clean).trans settled.1, settled.2.clflush m⟩

/-- After a store the node holds the value. -/
theorem Holds.store (l : Line N α) (n : N) (v : α) : (l.store n fun _ => v).Holds n v := Or.inl (store_copy l n _)

/-- A write-back settles what a node holds. -/
theorem Holds.clwb (holds : l.Holds n v) : (l.clwb n).Settled n v := by
  rcases holds with here | settled
  · constructor
    · rw [clwb_mem, view_of_copy here]
    · intro w d there
      rw [clwb_copy here] at there
      cases there
      exact ⟨rfl, rfl⟩
  · constructor
    · rw [clwb_mem, settled.view]
    · intro w d there
      cases here : l.copy n with
      | some c =>
        have value := settled.2 c.1 c.2 here
        rw [clwb_copy here] at there
        cases there
        exact ⟨value.1, rfl⟩
      | none =>
        rw [clwb_none here, here] at there
        cases there

/-- A load of any node leaves it held. -/
theorem Holds.load (holds : l.Holds n v) (m : N) : (l.load m).Holds n v := by
  rcases holds with here | settled
  · by_cases same : n = m
    · subst same
      have unchanged : l.load n = l := by simp [Line.load, here]
      rw [unchanged]
      exact Or.inl here
    · exact Or.inl ((load_other l same).trans here)
  · exact Or.inr (settled.load m)

/-- Of the other nodes only those matter that have something to write back. -/
theorem Holds.writeBack (holds : l.Holds n v) {m : N} (clean : m ≠ n → l.Clean m) : (l.writeBack m).Holds n v := by
  by_cases same : m = n
  · subst same
    rcases holds with here | settled
    · have written : l.writeBack m = l.clwb m := by simp [Line.writeBack, here]
      rw [written]
      exact Or.inr (Holds.clwb (Or.inl here))
    · exact Or.inr (settled.writeBack settled.2.clean)
  · rw [writeBack_clean (clean same)]
    exact holds

/-- A flush, by the node itself or of a clean copy, leaves it held. -/
theorem Holds.clflush (holds : l.Holds n v) {m : N} (clean : m ≠ n → l.Clean m) : (l.clflush m).Holds n v := by
  by_cases same : m = n
  · subst same
    rcases holds with here | settled
    · refine Or.inr ⟨?_, fresh_of_none (clflush_copy l m)⟩
      simp [Line.clflush, here]
    · exact Or.inr (settled.clflush settled.2.clean)
  · rcases holds with here | settled
    · exact Or.inl ((clflush_other l (Ne.symm same)).trans here)
    · exact Or.inr (settled.clflush (clean same))

end Line

end BiProject.Lib
