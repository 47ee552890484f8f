import Mathlib.Data.List.Pairwise
import Mathlib.Data.List.Perm.Subperm

/-!
# Regions of memory and their owners

Owners of any kind hold regions of memory. A call moves regions between two owners, gives some up, or
brings in new ones; as long as what it hands out was held before or is new, no two regions overlap.
-/

namespace BiProject.Lib.Regions
set_option autoImplicit false

structure Region where
  start : Nat
  size : Nat
deriving DecidableEq

def Region.Apart (r s : Region) : Prop := r.start + r.size ≤ s.start ∨ s.start + s.size ≤ r.start

theorem Region.Apart.symm {r s : Region} (apart : r.Apart s) : s.Apart r := Or.symm apart

instance : Std.Symm Region.Apart := ⟨fun _ _ => Region.Apart.symm⟩

def Region.Has (r : Region) (a : Nat) : Prop := r.start ≤ a ∧ a < r.start + r.size

theorem Region.Apart.not_both {r s : Region} (apart : r.Apart s) {a : Nat} (inR : r.Has a) (inS : s.Has a) : False := by
  unfold Has at inR inS
  unfold Apart at apart
  omega

/-- No line of a cache has addresses of both regions. -/
def Region.LineApart (line : Nat) (r s : Region) : Prop := ∀ a b, r.Has a → s.Has b → a / line ≠ b / line

theorem Region.LineApart.symm {line : Nat} {r s : Region} (apart : r.LineApart line s) : s.LineApart line r :=
  fun a b inS inR same => apart b a inR inS same.symm

/-- The later of two regions begins with a line. -/
theorem Region.lineApart_of_le {line : Nat} (size : 0 < line) {r s : Region} (before : r.start + r.size ≤ s.start) (aligned : line ∣ s.start) :
    r.LineApart line s := by
  obtain ⟨k, start⟩ := aligned
  intro a b inR inS same
  have first : a / line < k := by
    rw [Nat.div_lt_iff_lt_mul size, Nat.mul_comm]
    have := inR.2
    omega
  have second : k ≤ b / line := by
    rw [Nat.le_div_iff_mul_le size, Nat.mul_comm]
    have := inS.1
    omega
  omega

theorem Region.Apart.lineApart {line : Nat} (size : 0 < line) {r s : Region} (apart : r.Apart s) (aligned : line ∣ r.start)
    (aligned' : line ∣ s.start) : r.LineApart line s := by
  rcases apart with before | after
  · exact lineApart_of_le size before aligned'
  · exact (lineApart_of_le size after aligned).symm

/-- No two regions overlap, of one owner or of different ones. -/
structure Owned {κ : Type} (own : κ → List Region) : Prop where
  each : ∀ k, (own k).Pairwise Region.Apart
  across : ∀ k k', k ≠ k' → ∀ r ∈ own k, ∀ s ∈ own k', r.Apart s

section
variable {κ : Type} {own own' : κ → List Region} {k k' : κ}

/-- **A change at two owners.** What they hold afterwards is some of what they held and of the regions
`new`, which no one held. -/
theorem Owned.change (owned : Owned own) (differ : k ≠ k') {new : List Region} (fresh : new.Pairwise Region.Apart)
    (away : ∀ r ∈ new, ∀ j, ∀ s ∈ own j, r.Apart s) (rest : ∀ j, j ≠ k → j ≠ k' → own' j = own j)
    (moved : (own' k ++ own' k').Subperm (new ++ (own k ++ own k'))) : Owned own' := by
  have before : (new ++ (own k ++ own k')).Pairwise Region.Apart := by
    refine List.pairwise_append.mpr ⟨fresh, List.pairwise_append.mpr ⟨owned.each k, owned.each k', ?_⟩, fun r member s held => ?_⟩
    · exact owned.across k k' differ
    · rcases List.mem_append.mp held with here | there
      · exact away r member k s here
      · exact away r member k' s there
  have after : (own' k ++ own' k').Pairwise Region.Apart := by
    obtain ⟨l, perm, sublist⟩ := moved
    exact (perm.pairwise_iff fun apart => apart.symm).mp (before.sublist sublist)
  obtain ⟨first, second, between⟩ := List.pairwise_append.mp after
  -- a region of one of the two owners against one of a third
  have third : ∀ j, j ≠ k → j ≠ k' → ∀ r ∈ own' k ++ own' k', ∀ s ∈ own j, r.Apart s := by
    intro j notK notK' r member s held
    rcases List.mem_append.mp (moved.subset member) with new | old
    · exact away r new j s held
    · rcases List.mem_append.mp old with here | there
      · exact owned.across k j (Ne.symm notK) r here s held
      · exact owned.across k' j (Ne.symm notK') r there s held
  refine ⟨fun j => ?_, fun j j' apart r held s held' => ?_⟩
  · by_cases here : j = k
    · exact here ▸ first
    · by_cases there : j = k'
      · exact there ▸ second
      · rw [rest j here there]
        exact owned.each j
  · by_cases one : j = k ∨ j = k'
    · have member : r ∈ own' k ++ own' k' := by
        rcases one with rfl | rfl
        · exact List.mem_append_left _ held
        · exact List.mem_append_right _ held
      by_cases other : j' = k ∨ j' = k'
      · rcases one with rfl | rfl <;> rcases other with rfl | rfl
        · exact absurd rfl apart
        · exact between r held s held'
        · exact (between s held' r held).symm
        · exact absurd rfl apart
      · rw [not_or] at other
        rw [rest j' other.1 other.2] at held'
        exact third j' other.1 other.2 r member s held'
    · rw [not_or] at one
      rw [rest j one.1 one.2] at held
      by_cases other : j' = k ∨ j' = k'
      · have member : s ∈ own' k ++ own' k' := by
          rcases other with rfl | rfl
          · exact List.mem_append_left _ held'
          · exact List.mem_append_right _ held'
        exact (third j one.1 one.2 s member r held).symm
      · rw [not_or] at other
        rw [rest j' other.1 other.2] at held'
        exact owned.across j j' apart r held s held'

end

/-! ## Rows -/

/-- Regions of one size, one after another. -/
structure Row where
  start : Nat
  size : Nat
  count : Nat

def Row.slot (r : Row) (i : Nat) : Region := ⟨r.start + i * r.size, r.size⟩

def Row.stop (r : Row) : Nat := r.start + r.count * r.size

/-- One of the rows ends before the other begins. -/
def Row.Away (r s : Row) : Prop := r.stop ≤ s.start ∨ s.stop ≤ r.start

instance : Std.Symm Row.Away := ⟨fun _ _ => Or.symm⟩

theorem Row.slot_inside (r : Row) {i : Nat} (inside : i < r.count) : r.start ≤ (r.slot i).start ∧ (r.slot i).start + (r.slot i).size ≤ r.stop := by
  have next : (i + 1) * r.size ≤ r.count * r.size := Nat.mul_le_mul_right r.size inside
  rw [Nat.succ_mul] at next
  simp only [slot, stop]
  omega

theorem Row.slot_apart (r : Row) {i j : Nat} (differ : i ≠ j) : (r.slot i).Apart (r.slot j) := by
  unfold Region.Apart
  simp only [slot]
  rcases Nat.lt_or_gt_of_ne differ with less | greater
  · have next : (i + 1) * r.size ≤ j * r.size := Nat.mul_le_mul_right r.size less
    rw [Nat.succ_mul] at next
    omega
  · have next : (j + 1) * r.size ≤ i * r.size := Nat.mul_le_mul_right r.size greater
    rw [Nat.succ_mul] at next
    omega

/-- Every address of a row is one of a slot. -/
theorem Row.has_slot (r : Row) {a : Nat} (low : r.start ≤ a) (high : a < r.stop) : ∃ i < r.count, (r.slot i).Has a := by
  have size : 0 < r.size := by
    apply Nat.pos_of_ne_zero
    intro zero
    rw [stop, zero] at high
    omega
  have split := Nat.div_add_mod (a - r.start) r.size
  have rest := Nat.mod_lt (a - r.start) size
  rw [Nat.mul_comm] at split
  refine ⟨(a - r.start) / r.size, ?_, ?_⟩
  · rw [Nat.div_lt_iff_lt_mul size]
    rw [stop] at high
    omega
  · simp only [slot, Region.Has]
    omega

theorem Row.Away.slots {r s : Row} (away : r.Away s) {i j : Nat} (inside : i < r.count) (inside' : j < s.count) :
    (r.slot i).Apart (s.slot j) := by
  have first := r.slot_inside inside
  have second := s.slot_inside inside'
  unfold Region.Apart
  unfold Row.Away at away
  omega

/-- Rows that are placed between two addresses, each after the one before. -/
def Follow (lo : Nat) : List Row → Nat → Prop
  | [], hi => lo ≤ hi
  | r :: rs, hi => lo ≤ r.start ∧ Follow r.stop rs hi

theorem Follow.bounds {lo hi : Nat} {rs : List Row} (follow : Follow lo rs hi) : ∀ r ∈ rs, lo ≤ r.start ∧ r.stop ≤ hi := by
  induction rs generalizing lo with
  | nil => simp
  | cons s rs ih =>
    obtain ⟨low, rest⟩ := follow
    have stop : s.start ≤ s.stop := Nat.le_add_right _ _
    have ends : s.stop ≤ hi := by
      cases rs with
      | nil => exact rest
      | cons t rs =>
        obtain ⟨low', high'⟩ := ih rest t List.mem_cons_self
        have stop' : t.start ≤ t.stop := Nat.le_add_right _ _
        omega
    intro r member
    rcases List.mem_cons.mp member with rfl | later
    · exact ⟨low, ends⟩
    · obtain ⟨low', high'⟩ := ih rest r later
      exact ⟨by omega, high'⟩

theorem Follow.away {lo hi : Nat} {rs : List Row} (follow : Follow lo rs hi) : rs.Pairwise Row.Away := by
  induction rs generalizing lo with
  | nil => exact .nil
  | cons s rs ih =>
    obtain ⟨_, rest⟩ := follow
    exact .cons (fun r member => Or.inl (rest.bounds r member).1) (ih rest)

end BiProject.Lib.Regions
