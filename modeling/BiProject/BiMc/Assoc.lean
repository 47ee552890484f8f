import BiProject.Lib.Chains
import Mathlib.Algebra.Group.Nat.Defs
import Mathlib.Data.Option.Basic

/-!
# The hash table of `bi_mc`

The functions of `mc_code/bi_mc/assoc.c`. A function that changes the table is the list of its stores to
bucket heads and `h_next` fields, in their order; the items' other fields are not its business. The loops
run on fuel, and a function fails where it runs out of it or an assertion fails.
-/

namespace BiProject.BiMc
set_option autoImplicit false
open BiProject.Lib.Chains

abbrev Addr := Nat

/-- The fields of `item` that the table's functions and their callers use. -/
structure Item where
  hNext : Option Addr
  hv : Nat
  nbytes : Nat
  nsuffix : Nat
  linked : Bool
  slabbed : Bool
  slabsClsid : Nat
  nkey : Nat
  key : List UInt8
  suffix : List UInt8
  data : List UInt8

/-- `primary_hashtable` and the items. -/
structure Table where
  heads : Nat → Option Addr
  items : Addr → Item

def hashpower : Nat := 22
def hashmask : Nat := 2 ^ hashpower - 1

/-- The bucket of a hash value. -/
def bucketOf (hv : Nat) : Nat := hv &&& hashmask

/-- `__mc_hv2node`. -/
def mcHv2node (numNode hv : Nat) : Nat := if bucketOf hv > hashmask / (numNode / 2) then 1 else 0

/-- What an `item **` points to holds. -/
def Table.link (t : Table) : Cell Nat Addr → Option Addr
  | .head b => t.heads b
  | .next a => (t.items a).hNext

def Table.setItem (t : Table) (a : Addr) (it : Item) : Table := { t with items := Function.update t.items a it }

/-- A store to a bucket head or to an `h_next` field. -/
structure Store where
  cell : Cell Nat Addr
  value : Option Addr

def Table.store (t : Table) (s : Store) : Table :=
  match s.cell with
  | .head b => { t with heads := Function.update t.heads b s.value }
  | .next a => t.setItem a { t.items a with hNext := s.value }

def Table.storeAll (t : Table) (ss : List Store) : Table := ss.foldl Table.store t

/-- The comparison with `nkey` and `memcmp`. -/
def Item.matches (it : Item) (key : List UInt8) (nkey : Nat) : Bool := nkey == it.nkey && key.take nkey == it.key.take nkey

/-- The loop of `assoc_find`. -/
def assocFindLoop (t : Table) (key : List UInt8) (nkey : Nat) : Nat → Option Addr → Option (Option Addr)
  | 0, _ => none
  | _ + 1, none => some none
  | fuel + 1, some a =>
    if (t.items a).matches key nkey then some (some a) else assocFindLoop t key nkey fuel (t.items a).hNext

def assocFind (fuel : Nat) (t : Table) (key : List UInt8) (nkey hv : Nat) : Option (Option Addr) :=
  assocFindLoop t key nkey fuel (t.heads (bucketOf hv))

/-- The loop of `_hashitem_before`. -/
def hashitemBeforeLoop (t : Table) (key : List UInt8) (nkey : Nat) : Nat → Cell Nat Addr → Option (Cell Nat Addr)
  | 0, _ => none
  | fuel + 1, pos =>
    match t.link pos with
    | none => some pos
    | some a => if (t.items a).matches key nkey then some pos else hashitemBeforeLoop t key nkey fuel (.next a)

def hashitemBefore (fuel : Nat) (t : Table) (key : List UInt8) (nkey hv : Nat) : Option (Cell Nat Addr) :=
  hashitemBeforeLoop t key nkey fuel (.head (bucketOf hv))

def assocInsert (numNode : Nat) (t : Table) (node : Nat) (it : Addr) (hv : Nat) : Option (List Store) := do
  guard (mcHv2node numNode hv = node)
  return [⟨.next it, t.heads (bucketOf hv)⟩, ⟨.head (bucketOf hv), some it⟩]

def assocDelete (numNode fuel : Nat) (t : Table) (node : Nat) (key : List UInt8) (nkey hv : Nat) : Option (List Store) := do
  let before ← hashitemBefore fuel t key nkey hv
  guard (mcHv2node numNode hv = node)
  let a ← t.link before
  return [⟨before, (t.items a).hNext⟩]

def assocReplace (fuel : Nat) (t : Table) (old new : Addr) (hv : Nat) : Option (List Store) := do
  let before ← hashitemBefore fuel t (t.items old).key (t.items old).nkey hv
  match t.link before with
  | some a => return [⟨.next new, (t.items a).hNext⟩, ⟨before, some new⟩]
  | none => return []

/-! ## Names -/

/-- The length of a key and its bytes. -/
abbrev Key := Nat × List UInt8

def Item.name (it : Item) : Key := (it.nkey, it.key.take it.nkey)

/-- The name an item has in the table. -/
def Table.name (t : Table) (a : Addr) : Key := (t.items a).name

theorem Table.matches_iff (t : Table) (a : Addr) (key : List UInt8) (nkey : Nat) :
    (t.items a).matches key nkey = true ↔ t.name a = (nkey, key.take nkey) := by
  simp only [Item.matches, Table.name, Item.name, Bool.and_eq_true, beq_iff_eq, Prod.mk.injEq]
  constructor
  · rintro ⟨rfl, same⟩
    exact ⟨rfl, same.symm⟩
  · rintro ⟨rfl, same⟩
    exact ⟨rfl, same.symm⟩

section
variable {t : Table}

@[simp] theorem Table.store_link (s : Store) : (t.store s).link = Function.update t.link s.cell s.value := by
  obtain ⟨cell, value⟩ := s
  funext c
  cases cell with
  | head b =>
    cases c with
    | head b' =>
      by_cases same : b' = b
      · subst same
        simp [Table.store, Table.link]
      · simp [Table.store, Table.link, same]
    | next a => simp [Table.store, Table.link]
  | next a =>
    cases c with
    | head b => simp [Table.store, Table.link, Table.setItem]
    | next a' =>
      by_cases same : a' = a
      · subst same
        simp [Table.store, Table.link, Table.setItem]
      · simp [Table.store, Table.link, Table.setItem, same]

/-- Stores to links leave the rest of the items alone. -/
theorem Table.store_items (s : Store) (a : Addr) : ∃ p, (t.store s).items a = { t.items a with hNext := p } := by
  obtain ⟨cell, value⟩ := s
  cases cell with
  | head b => exact ⟨(t.items a).hNext, rfl⟩
  | next a' =>
    by_cases same : a = a'
    · subst same
      exact ⟨value, by simp [Table.store, Table.setItem]⟩
    · exact ⟨(t.items a).hNext, by simp [Table.store, Table.setItem, Function.update_of_ne same]⟩

@[simp] theorem Table.store_name (s : Store) : (t.store s).name = t.name := by
  funext a
  obtain ⟨p, after⟩ := t.store_items s a
  rw [Table.name, after]
  rfl

/-! ## The loops -/

variable {key : List UInt8} {nkey fuel : Nat} {c : Cell Nat Addr} {xs : List Addr}

theorem assocFindLoop_path (path : Path t.link c xs) (enough : xs.length < fuel) :
    assocFindLoop t key nkey fuel (t.link c) = some (xs.find? fun a => t.name a = (nkey, key.take nkey)) := by
  induction xs generalizing c fuel with
  | nil =>
    obtain ⟨fuel, rfl⟩ := Nat.exists_eq_add_of_lt enough
    rw [show t.link c = none from path]
    simp [assocFindLoop]
  | cons a xs ih =>
    obtain ⟨fuel, rfl⟩ : ∃ n, fuel = n + 1 := ⟨fuel - 1, by simp at enough; omega⟩
    rw [path.1, assocFindLoop]
    by_cases here : (t.items a).matches key nkey = true
    · rw [if_pos here, List.find?_cons_of_pos (by simpa using (t.matches_iff a key nkey).mp here)]
    · rw [if_neg here, List.find?_cons_of_neg (by simpa using fun same => here ((t.matches_iff a key nkey).mpr same))]
      exact ih path.2 (by simpa using enough)

/-- What `assoc_find` returns, with whatever fuel. -/
theorem assocFindLoop_some {r : Option Addr} (path : Path t.link c xs)
    (run : assocFindLoop t key nkey fuel (t.link c) = some r) : r = xs.find? fun a => t.name a = (nkey, key.take nkey) := by
  induction fuel generalizing c xs with
  | zero => cases run
  | succ fuel ih =>
    cases xs with
    | nil =>
      rw [show t.link c = none from path] at run
      exact (Option.some.inj run).symm
    | cons a xs =>
      rw [path.1, assocFindLoop] at run
      by_cases here : (t.items a).matches key nkey = true
      · rw [if_pos here] at run
        rw [List.find?_cons_of_pos (by simpa using (t.matches_iff a key nkey).mp here)]
        exact (Option.some.inj run).symm
      · rw [if_neg here] at run
        rw [List.find?_cons_of_neg (by simpa using fun same => here ((t.matches_iff a key nkey).mpr same))]
        exact ih path.2 run

/-- The cell `_hashitem_before` returns. -/
theorem hashitemBeforeLoop_path {pos : Cell Nat Addr} (path : Path t.link c xs)
    (run : hashitemBeforeLoop t key nkey fuel c = some pos) :
    ∃ ys zs, xs = ys ++ zs ∧ pos = lastCell c ys ∧ (∀ y ∈ ys, t.name y ≠ (nkey, key.take nkey)) ∧
      ∀ z ∈ zs.head?, t.name z = (nkey, key.take nkey) := by
  induction fuel generalizing c xs with
  | zero => cases run
  | succ fuel ih =>
    rw [hashitemBeforeLoop] at run
    cases xs with
    | nil =>
      rw [show t.link c = none from path] at run
      exact ⟨[], [], rfl, (Option.some.inj run).symm, by simp, by simp⟩
    | cons a xs =>
      rw [path.1] at run
      simp only at run
      split_ifs at run with here
      · refine ⟨[], a :: xs, rfl, (Option.some.inj run).symm, by simp, ?_⟩
        simpa using (t.matches_iff a key nkey).mp here
      · obtain ⟨ys, zs, rfl, rfl, others, first⟩ := ih path.2 run
        refine ⟨a :: ys, zs, rfl, rfl, ?_, first⟩
        intro y member
        rcases List.mem_cons.mp member with rfl | later
        · exact fun same => here ((t.matches_iff y key nkey).mpr same)
        · exact others y later

end

end BiProject.BiMc
