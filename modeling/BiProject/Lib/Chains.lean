import Mathlib.Data.List.Basic
import Mathlib.Logic.Function.Basic

/-!
# Singly linked chains

Chains of nodes that start in a head cell and are linked through one cell in each node, as in the buckets
of a hash table. A walk is a search along the links; it may start at a node that is in no chain any more.
-/

namespace BiProject.Lib.Chains
set_option autoImplicit false

/-- A cell that holds a pointer: the head of a chain, or the link of a node. -/
inductive Cell (β α : Type) where
  | head (b : β)
  | next (a : α)
deriving DecidableEq

section
variable {β α : Type}

/-- From the cell `c` one reads the nodes `xs`, and then NULL. -/
def Path (link : Cell β α → Option α) : Cell β α → List α → Prop
  | c, [] => link c = none
  | c, a :: xs => link c = some a ∧ Path link (.next a) xs

/-- The cell that one stands on behind the nodes `xs`. -/
def lastCell : Cell β α → List α → Cell β α
  | c, [] => c
  | _, a :: xs => lastCell (.next a) xs

variable {link link' : Cell β α → Option α} {c : Cell β α} {xs ys zs : List α}

theorem Path.link_eq (path : Path link c xs) : link c = xs.head? := by
  cases xs with
  | nil => exact path
  | cons a rest => exact path.1

theorem Path.unique (path : Path link c xs) (path' : Path link c ys) : xs = ys := by
  induction xs generalizing c ys with
  | nil =>
    cases ys with
    | nil => rfl
    | cons b rest => exact absurd (path.symm.trans path'.1) (by simp)
  | cons a xs ih =>
    cases ys with
    | nil => exact absurd (path'.symm.trans path.1) (by simp)
    | cons b rest =>
      obtain rfl : a = b := Option.some.inj (path.1.symm.trans path'.1)
      rw [ih path.2 path'.2]

theorem Path.drop (path : Path link c (ys ++ zs)) : Path link (lastCell c ys) zs := by
  induction ys generalizing c with
  | nil => exact path
  | cons a ys ih => exact ih path.2

theorem lastCell_append (c : Cell β α) (ys : List α) (a : α) : lastCell c (ys ++ [a]) = .next a := by
  induction ys generalizing c with
  | nil => rfl
  | cons b ys ih => exact ih _

theorem lastCell_mem (c : Cell β α) (ys : List α) : lastCell c ys = c ∨ ∃ a ∈ ys, lastCell c ys = .next a := by
  rcases List.eq_nil_or_concat ys with rfl | ⟨front, a, rfl⟩
  · exact Or.inl rfl
  · rw [List.concat_eq_append, lastCell_append]
    exact Or.inr ⟨a, by simp, rfl⟩

/-- A chain does not come back to the cell it started from. -/
theorem Path.not_mem (path : Path link c xs) {a : α} (start : c = .next a) : a ∉ xs := by
  intro member
  obtain ⟨ys, zs, rfl⟩ := List.append_of_mem member
  have behind : Path link (.next a) zs := by
    have rest : Path link (lastCell c ys) (a :: zs) := path.drop
    exact rest.2
  have same : zs = ys ++ a :: zs := behind.unique (start ▸ path)
  have length := congrArg List.length same
  simp only [List.length_append, List.length_cons] at length
  omega

theorem Path.nodup (path : Path link c xs) : xs.Nodup := by
  induction xs generalizing c with
  | nil => exact List.nodup_nil
  | cons a xs ih => exact List.nodup_cons.mpr ⟨path.2.not_mem rfl, ih path.2⟩

/-- The nodes `xs` from another cell that holds the same pointer. -/
theorem Path.moved {e : Cell β α} (path : Path link c xs) (start : link' e = xs.head?)
    (same : ∀ a ∈ xs, link' (.next a) = link (.next a)) : Path link' e xs := by
  induction xs generalizing c e with
  | nil => exact start
  | cons a xs ih =>
    refine ⟨start, ih path.2 ?_ fun b member => same b (by simp [member])⟩
    rw [same a (by simp)]
    exact path.2.link_eq

theorem Path.frame (path : Path link c xs) (start : link' c = link c) (same : ∀ a ∈ xs, link' (.next a) = link (.next a)) :
    Path link' c xs := path.moved (start.trans path.link_eq) same

theorem Path.lastCell_ne (path : Path link c (ys ++ zs)) {z : α} (member : z ∈ zs) : lastCell c ys ≠ .next z :=
  fun same => path.drop.not_mem same member

variable [DecidableEq α] [DecidableEq β]

/-- **A store into the cell behind `ys`** leaves the nodes before it and what is then behind it. -/
theorem Path.splice {v : Option α} (path : Path link c (ys ++ zs)) {ws : List α}
    (tail : Path (Function.update link (lastCell c ys) v) (lastCell c ys) ws) :
    Path (Function.update link (lastCell c ys) v) c (ys ++ ws) := by
  induction ys generalizing c with
  | nil => exact tail
  | cons a ys ih =>
    have before : c ≠ lastCell (.next a) ys := by
      intro same
      rcases lastCell_mem (.next a : Cell β α) ys with here | ⟨b, member, later⟩
      · exact path.not_mem (same.trans here) (by simp)
      · exact path.not_mem (same.trans later) (by simp [member])
    refine ⟨?_, ih path.2 tail⟩
    rw [lastCell, Function.update_of_ne before]
    exact path.1

/-- The node behind `ys` is taken out. -/
theorem Path.remove {o : α} (path : Path link c (ys ++ o :: zs)) :
    Path (Function.update link (lastCell c ys) zs.head?) c (ys ++ zs) := by
  have behind : Path link (.next o) zs := path.drop.2
  refine path.splice (behind.moved (Function.update_self _ _ _) fun z member => ?_)
  exact Function.update_of_ne (path.lastCell_ne (List.mem_cons_of_mem o member)).symm _ _

/-- A node that is linked to `zs` is linked in behind `ys`, in the place of `ms`. -/
theorem Path.enter {ms : List α} {a : α} (path : Path link c (ys ++ (ms ++ zs))) (start : c ≠ .next a)
    (absent : a ∉ ys ++ (ms ++ zs)) (ready : link (.next a) = zs.head?) :
    Path (Function.update link (lastCell c ys) (some a)) c (ys ++ a :: zs) := by
  have elsewhere : lastCell c ys ≠ .next a := by
    rcases lastCell_mem c ys with here | ⟨b, member, later⟩
    · rw [here]
      exact start
    · rw [later]
      rintro ⟨⟩
      exact absent (by simp [member])
  refine path.splice ⟨Function.update_self _ _ _, path.drop.drop.moved ?_ fun z member => ?_⟩
  · rw [Function.update_of_ne elsewhere.symm]
    exact ready
  · exact Function.update_of_ne (path.lastCell_ne (List.mem_append_right ms member)).symm _ _

end

/-! ## Walks -/

section
variable {β α : Type} (link : Cell β α → Option α) (isKey : α → Prop)

/-- A search from the pointer `p` that looks for a node returns `r`. -/
inductive Walk : Option α → Option α → Prop where
  | missing : Walk none none
  | found {a : α} (here : isKey a) : Walk (some a) (some a)
  | next {a : α} {r : Option α} (other : ¬ isKey a) (rest : Walk (link (.next a)) r) : Walk (some a) r

end

section
variable {β α : Type} {link : Cell β α → Option α} {isKey : α → Prop}

theorem Walk.det {p r r' : Option α} (walk : Walk link isKey p r) (walk' : Walk link isKey p r') : r = r' := by
  induction walk with
  | missing => cases walk'; rfl
  | found here =>
    cases walk' with
    | found _ => rfl
    | next other _ => exact absurd here other
  | next other _ ih =>
    cases walk' with
    | found here => exact absurd here other
    | next _ rest' => exact ih rest'

/-- A walk along a chain returns the first node that is looked for. -/
theorem Path.walk [DecidablePred isKey] {c : Cell β α} {xs : List α} (path : Path link c xs) :
    Walk link isKey (link c) (xs.find? (isKey ·)) := by
  induction xs generalizing c with
  | nil =>
    rw [show link c = none from path]
    exact .missing
  | cons a xs ih =>
    rw [path.1]
    by_cases here : isKey a
    · rw [List.find?_cons_of_pos (by simpa using here)]
      exact .found here
    · rw [List.find?_cons_of_neg (by simpa using here)]
      exact .next here (ih path.2)

/-- A walk sees the nodes of a set that its links do not leave. -/
theorem Walk.frame {link' : Cell β α → Option α} {isKey' : α → Prop} {p r : Option α} (S : Set α) (walk : Walk link isKey p r)
    (start : ∀ a, p = some a → a ∈ S) (closed : ∀ a ∈ S, ∀ b, link (.next a) = some b → b ∈ S)
    (keys : ∀ a ∈ S, isKey' a ↔ isKey a) (same : ∀ a ∈ S, link' (.next a) = link (.next a)) : Walk link' isKey' p r := by
  induction walk with
  | missing => exact .missing
  | @found a here => exact .found ((keys a (start a rfl)).mpr here)
  | @next a r other _ ih =>
    have member := start a rfl
    refine .next (fun here => other ((keys a member).mp here)) ?_
    rw [same a member]
    exact ih (closed a member)

/-- A store into the link of the node `x`: the walk is the same, or it passes `x` and goes on at the new
pointer. -/
theorem Walk.store [DecidableEq α] [DecidableEq β] {p r v : Option α} {x : α} (walk : Walk link isKey p r) :
    Walk (Function.update link (.next x) v) isKey p r ∨
      (¬ isKey x ∧ Walk link isKey (link (.next x)) r ∧
        ∀ r', Walk (Function.update link (.next x) v) isKey v r' → Walk (Function.update link (.next x) v) isKey p r') := by
  induction walk with
  | missing => exact Or.inl .missing
  | found here => exact Or.inl (.found here)
  | @next a r other rest ih =>
    by_cases here : a = x
    · subst here
      refine Or.inr ⟨other, rest, fun r' walk' => .next other ?_⟩
      rwa [Function.update_self]
    · have same : Function.update link (.next x) v (.next a) = link (.next a) :=
        Function.update_of_ne (fun equal => here (Cell.next.inj equal)) _ _
      rw [← same] at ih
      rcases ih with unchanged | ⟨passes, behind, follow⟩
      · exact Or.inl (.next other unchanged)
      · exact Or.inr ⟨passes, behind, fun r' walk' => .next other (follow r' walk')⟩

end

end BiProject.Lib.Chains
