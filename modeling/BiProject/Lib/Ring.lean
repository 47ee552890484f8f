import Mathlib.Data.List.Basic
import Mathlib.Data.Nat.ModEq
import Mathlib.Logic.Function.Basic

/-!
# Circular buffers read as queues

A ring of `N` slots is a slot function together with a `head` and a `tail` index below `N`.
The occupied slots run from `head` up to, not including, `tail`, wrapping at `N`; one slot
always stays empty, so equal indices mean an empty ring. `contents` reads the occupied slots
in order. Pushing writes slot `tail` and advances `tail`; popping advances `head`. The lemmas
say what both do to `contents`, and that the number of a slot is its absolute position modulo
`N` (`absolute`), which is how a reader that keeps an index of its own is related to a ring
that keeps moving under it.
-/

namespace BiProject.Lib.Ring
set_option autoImplicit false

/-- The slot after `i`. -/
def next (N i : Nat) : Nat := (i + 1) % N

/-- How many slots lie between `head` and `tail`. -/
def span (N head tail : Nat) : Nat := if head ≤ tail then tail - head else tail + N - head

/-- The occupied slots, oldest first. -/
def contents {α : Type*} (N : Nat) (slot : Nat → α) (head tail : Nat) : List α :=
  (List.range (span N head tail)).map fun i => slot ((head + i) % N)

theorem next_eq {N i : Nat} (bound : i < N) : next N i = if i + 1 = N then 0 else i + 1 := by
  unfold next
  split
  · next wraps => rw [wraps, Nat.mod_self]
  · exact Nat.mod_eq_of_lt (by omega)

theorem next_lt {N i : Nat} (bound : i < N) : next N i < N :=
  Nat.mod_lt _ (by omega)

theorem span_lt {N head tail : Nat} (headBound : head < N) (tailBound : tail < N) : span N head tail < N := by
  unfold span
  split <;> omega

theorem wrap_eq {N head i : Nat} (headBound : head < N) (bound : i < N) :
    (head + i) % N = if head + i < N then head + i else head + i - N := by
  split
  · next inside => exact Nat.mod_eq_of_lt inside
  · rw [Nat.mod_eq_sub_mod (by omega)]
    exact Nat.mod_eq_of_lt (by omega)

@[simp] theorem contents_length {α : Type*} (N : Nat) (slot : Nat → α) (head tail : Nat) :
    (contents N slot head tail).length = span N head tail := by
  simp [contents]

/-- A ring never holds more than `N - 1` entries. -/
theorem contents_length_lt {α : Type*} {N : Nat} (slot : Nat → α) {head tail : Nat} (headBound : head < N)
    (tailBound : tail < N) : (contents N slot head tail).length < N := by
  rw [contents_length]
  exact span_lt headBound tailBound

theorem contents_self {α : Type*} (N : Nat) (slot : Nat → α) (i : Nat) : contents N slot i i = [] := by
  simp [contents, span]

theorem contents_eq_nil_iff {α : Type*} {N : Nat} (slot : Nat → α) {head tail : Nat}
    (headBound : head < N) : contents N slot head tail = [] ↔ head = tail := by
  rw [← List.length_eq_zero_iff, contents_length, span]
  split <;> omega

/-- The test "the next tail is the head" says that all but one slot is taken. -/
theorem full_iff {α : Type*} {N : Nat} (slot : Nat → α) {head tail : Nat} (headBound : head < N)
    (tailBound : tail < N) : head = next N tail ↔ (contents N slot head tail).length + 1 = N := by
  rw [contents_length, span, next_eq tailBound]
  split <;> split <;> omega

/-- Advancing `head` brings it one slot closer. -/
theorem span_next {N head tail : Nat} (headBound : head < N) (tailBound : tail < N) (occupied : head ≠ tail) :
    span N head tail = span N (next N head) tail + 1 := by
  rw [span, span, next_eq headBound]
  split_ifs <;> omega

/-- The oldest entry sits at `head`; the others are what is left after advancing it. -/
theorem contents_pop {α : Type*} {N : Nat} (slot : Nat → α) {head tail : Nat} (headBound : head < N)
    (tailBound : tail < N) (occupied : head ≠ tail) :
    contents N slot head tail = slot head :: contents N slot (next N head) tail := by
  unfold contents
  rw [span_next headBound tailBound occupied, List.range_succ_eq_map, List.map_cons, List.map_map]
  have here : (head + 0) % N = head := Nat.mod_eq_of_lt headBound
  rw [here]
  congr 1
  apply List.map_congr_left
  intro i _
  simp only [Function.comp_apply, next, Nat.succ_eq_add_one, Nat.mod_add_mod]
  congr 2
  omega

/-- The tail is as many slots behind the head as there are entries. -/
theorem head_add_span {N head tail : Nat} (headBound : head < N) (tailBound : tail < N) :
    (head + span N head tail) % N = tail := by
  rw [wrap_eq headBound (span_lt headBound tailBound), span]
  split_ifs <;> omega

/-- Writing slot `tail` and advancing `tail` appends one entry. -/
theorem contents_push {α : Type*} {N : Nat} (slot : Nat → α) {head tail : Nat} (x : α)
    (headBound : head < N) (tailBound : tail < N) (room : head ≠ next N tail) :
    contents N (Function.update slot tail x) head (next N tail) = contents N slot head tail ++ [x] := by
  have grow : span N head (next N tail) = span N head tail + 1 := by
    rw [next_eq tailBound] at room
    rw [span, span, next_eq tailBound]
    split_ifs at * <;> omega
  have last := head_add_span headBound tailBound
  unfold contents
  rw [grow, List.range_succ, List.map_append, List.map_singleton, last, Function.update_self]
  congr 1
  apply List.map_congr_left
  intro i member
  have before : i < span N head tail := List.mem_range.mp member
  have bound : span N head tail < N := span_lt headBound tailBound
  apply Function.update_of_ne
  -- the slots already taken are exactly those the new tail slot is not one of
  intro same
  rw [wrap_eq headBound (by omega)] at same
  rw [span] at before
  split_ifs at same before <;> omega

/-- The entry at position `i` behind `head`. -/
theorem contents_getElem? {α : Type*} {N : Nat} (slot : Nat → α) {head tail i : Nat}
    (inside : i < (contents N slot head tail).length) :
    (contents N slot head tail)[i]? = some (slot ((head + i) % N)) := by
  rw [contents_length] at inside
  simp [contents, inside]

/-- An index that started at zero and was advanced `k` times is `k` modulo `N`. -/
theorem absolute {N i k : Nat} (index : i = k % N) : next N i = (k + 1) % N := by
  rw [next, index, Nat.mod_add_mod]

/-- Two absolute positions less than a ring apart that name the same slot are equal. -/
theorem absolute_inj {N i k : Nat} (ordered : i ≤ k) (near : k < i + N) (same : i % N = k % N) : i = k := by
  obtain ⟨d, rfl⟩ := Nat.exists_eq_add_of_le ordered
  have zero : d % N = 0 := by
    have cancel : i + 0 ≡ i + d [MOD N] := same
    exact (Nat.ModEq.add_left_cancel' i cancel).symm
  rw [Nat.mod_eq_of_lt (by omega)] at zero
  omega

/-! ## Rings that mark empty slots -/

/-- The numbers of the occupied slots are different ones. -/
theorem positions_nodup {N head tail : Nat} (headBound : head < N) (tailBound : tail < N) :
    (contents N id head tail).Nodup := by
  have bound : span N head tail < N := span_lt headBound tailBound
  refine List.pairwise_map.mpr (List.pairwise_lt_range.imp_of_mem fun {i j} _ inside less => ?_)
  have last := List.mem_range.mp inside
  simp only [id_eq, wrap_eq headBound (show i < N by omega), wrap_eq headBound (show j < N by omega)]
  split_ifs <;> omega

/-- The ring holds `q`, oldest first, and every other slot is marked empty. -/
structure Holds {α : Type*} (N : Nat) (slot : Nat → Option α) (head tail : Nat) (q : List α) : Prop where
  headBound : head < N
  tailBound : tail < N
  entries : contents N slot head tail = q.map some
  marks : ∀ i < N, slot i ≠ none ↔ i ∈ contents N id head tail

section
variable {α : Type*} {N head tail : Nat} {slot : Nat → Option α} {q : List α}

/-- The slot at `head` holds the oldest entry. -/
theorem Holds.peek (holds : Holds N slot head tail q) : slot head = q.head? := by
  by_cases empty : head = tail
  · have none : contents N slot head tail = [] := (contents_eq_nil_iff slot holds.headBound).mpr empty
    have noEntry : q = [] := List.map_eq_nil_iff.mp (holds.entries.symm.trans none)
    subst empty
    rw [noEntry, List.head?_nil]
    by_contra marked
    have inside := (holds.marks head holds.headBound).mp marked
    rw [contents_self] at inside
    cases inside
  · have first := contents_pop slot holds.headBound holds.tailBound empty
    rw [holds.entries] at first
    cases q with
    | nil => cases first
    | cons a rest => exact (List.cons.inj first).1.symm

/-- Clearing the slot at `head` and advancing `head` takes the oldest entry out. -/
theorem Holds.pop {a : α} (holds : Holds N slot head tail (a :: q)) : Holds N (Function.update slot head none) (next N head) tail q := by
  have occupied : head ≠ tail := by
    intro empty
    have none := (contents_eq_nil_iff slot holds.headBound).mpr empty
    rw [holds.entries] at none
    cases none
  have entries := contents_pop slot holds.headBound holds.tailBound occupied
  have positions := contents_pop id holds.headBound holds.tailBound occupied
  have distinct := positions_nodup holds.headBound holds.tailBound
  rw [positions] at distinct
  have away := (List.nodup_cons.mp distinct).1
  refine ⟨next_lt holds.headBound, holds.tailBound, ?_, fun i bound => ?_⟩
  · rw [holds.entries, List.map_cons] at entries
    rw [← (List.cons.inj entries).2.symm]
    refine List.map_congr_left fun j inside => Function.update_of_ne ?_ _ _
    rintro same
    exact away (List.mem_map.mpr ⟨j, inside, same⟩)
  · by_cases here : i = head
    · subst here
      simpa using away
    · rw [Function.update_of_ne here, holds.marks i bound, positions, List.mem_cons]
      exact or_iff_right here

/-- Writing the slot at `tail` and advancing `tail` appends an entry. -/
theorem Holds.push (holds : Holds N slot head tail q) (a : α) (room : head ≠ next N tail) :
    Holds N (Function.update slot tail (some a)) head (next N tail) (q ++ [a]) := by
  refine ⟨holds.headBound, next_lt holds.tailBound, ?_, fun i bound => ?_⟩
  · rw [contents_push slot (some a) holds.headBound holds.tailBound room, holds.entries, List.map_append]
    rfl
  · have positions := contents_push id tail holds.headBound holds.tailBound room
    rw [show Function.update id tail tail = id from Function.update_eq_self tail id] at positions
    rw [positions, List.mem_append, List.mem_singleton]
    by_cases here : i = tail
    · simp [here]
    · rw [Function.update_of_ne here, holds.marks i bound]
      simp [here]

end

end BiProject.Lib.Ring
