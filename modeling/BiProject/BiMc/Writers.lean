import BiProject.BiMc.Assoc
import Mathlib.Data.Set.Basic

/-!
# The writers of the hash table

Each bucket has a writer that runs any sequence of `assoc_insert`, `assoc_replace` and `assoc_delete`, one
store at a time, in any interleaving with the others. At every moment each bucket is a chain of items that
belong there, no two with the same key: an operation is one store that takes an item out of its chain or
links one in, after the link of the new item has been set.
-/

namespace BiProject.BiMc
set_option autoImplicit false
open BiProject.Lib.Chains

/-! ## The writers -/

/-- The table, and for each bucket the stores of the operation in progress that are still to come. -/
structure Sys where
  table : Table
  pending : Nat → List Store

/-- The item `a` is in the chain of the bucket `b`. -/
def Table.InBucket (t : Table) (b : Nat) (a : Addr) : Prop := ∃ xs, Path t.link (.head b) xs ∧ a ∈ xs

/-- An item that can be handed out: it is in no chain, in no operation in progress, and not to be avoided. -/
structure Sys.Fresh (σ : Sys) (avoid : Set Addr) (a : Addr) : Prop where
  unseen : a ∉ avoid
  unlinked : ∀ b, ¬ σ.table.InBucket b a
  unused : ∀ b, ∀ s ∈ σ.pending b, s.cell ≠ .next a ∧ s.value ≠ some a

/-- One step of the writer of a bucket: it begins an operation, with an item that is filled before it is linked,
or performs its next store. The hash value is a function of the key. -/
inductive WStep (numNode : Nat) (hash : Key → Nat) (avoid : Set Addr) (σ : Sys) : Sys → Prop where
  | insert {a : Addr} {it : Item} {node : Nat} {ss : List Store} (idle : σ.pending (bucketOf (hash it.name)) = [])
      (fresh : σ.Fresh avoid a) (absent : ∀ x, σ.table.InBucket (bucketOf (hash it.name)) x → σ.table.name x ≠ it.name)
      (run : assocInsert numNode (σ.table.setItem a it) node a (hash it.name) = some ss) :
      WStep numNode hash avoid σ ⟨σ.table.setItem a it, Function.update σ.pending (bucketOf (hash it.name)) ss⟩
  | replace {old a : Addr} {it : Item} {fuel : Nat} {ss : List Store} (idle : σ.pending (bucketOf (hash it.name)) = [])
      (fresh : σ.Fresh avoid a) (same : (σ.table.setItem a it).name old = it.name)
      (run : assocReplace fuel (σ.table.setItem a it) old a (hash it.name) = some ss) :
      WStep numNode hash avoid σ ⟨σ.table.setItem a it, Function.update σ.pending (bucketOf (hash it.name)) ss⟩
  | delete {key : List UInt8} {nkey node fuel : Nat} {ss : List Store}
      (idle : σ.pending (bucketOf (hash (nkey, key.take nkey))) = [])
      (run : assocDelete numNode fuel σ.table node key nkey (hash (nkey, key.take nkey)) = some ss) :
      WStep numNode hash avoid σ ⟨σ.table, Function.update σ.pending (bucketOf (hash (nkey, key.take nkey))) ss⟩
  | store {b : Nat} {s : Store} {ss : List Store} (next : σ.pending b = s :: ss) :
      WStep numNode hash avoid σ ⟨σ.table.store s, Function.update σ.pending b ss⟩

/-- The states that the writers reach from the empty table. -/
inductive Written (numNode : Nat) (hash : Key → Nat) : Sys → Prop where
  | init (items : Addr → Item) : Written numNode hash ⟨⟨fun _ => none, items⟩, fun _ => []⟩
  | step {σ σ' : Sys} (before : Written numNode hash σ) (next : WStep numNode hash ∅ σ σ') : Written numNode hash σ'

/-! ## What the writers keep -/

/-- The bucket of an item, and of a cell. -/
def Table.home (hash : Key → Nat) (t : Table) (a : Addr) : Nat := bucketOf (hash (t.name a))

def Table.cellHome (hash : Key → Nat) (t : Table) : Cell Nat Addr → Nat
  | .head b => b
  | .next a => t.home hash a

/-- The items `xs` are the chain of the bucket `b`, all of them belong there, and no two have the same key. -/
structure Tidy (hash : Key → Nat) (t : Table) (b : Nat) (xs : List Addr) : Prop where
  path : Path t.link (.head b) xs
  home : ∀ a ∈ xs, t.home hash a = b
  names : (xs.map t.name).Nodup

/-- The item `a` can be linked in between `ys` and `zs`, in the place of `ms`, and no reader knows it. -/
structure Enters (hash : Key → Nat) (V : Set Addr) (t : Table) (b : Nat) (ys ms zs : List Addr) (a : Addr) : Prop where
  unseen : a ∉ V
  absent : a ∉ ys ++ (ms ++ zs)
  home : t.home hash a = b
  replaces : ∀ o ∈ ms, t.name o = t.name a
  names : ((ys ++ a :: zs).map t.name).Nodup

/-- The stores still to come of an operation on a bucket with the chain `xs`. -/
inductive Pends (hash : Key → Nat) (V : Set Addr) (t : Table) (b : Nat) (xs : List Addr) : List Store → Prop where
  | idle : Pends hash V t b xs []
  | remove {ys zs : List Addr} {o : Addr} (split : xs = ys ++ o :: zs) :
      Pends hash V t b xs [⟨lastCell (.head b) ys, zs.head?⟩]
  | enter {ys ms zs : List Addr} {a : Addr} (split : xs = ys ++ (ms ++ zs)) (enters : Enters hash V t b ys ms zs a)
      (ready : t.link (.next a) = zs.head?) : Pends hash V t b xs [⟨lastCell (.head b) ys, some a⟩]
  | prepare {ys ms zs : List Addr} {a : Addr} (split : xs = ys ++ (ms ++ zs)) (enters : Enters hash V t b ys ms zs a) :
      Pends hash V t b xs [⟨.next a, zs.head?⟩, ⟨lastCell (.head b) ys, some a⟩]

/-- What is true of a bucket at every moment. -/
def Working (hash : Key → Nat) (V : Set Addr) (σ : Sys) (b : Nat) (xs : List Addr) : Prop :=
  Tidy hash σ.table b xs ∧ Pends hash V σ.table b xs (σ.pending b)

section
variable {numNode : Nat} {hash : Key → Nat} {V : Set Addr} {t t' : Table} {b : Nat} {xs : List Addr} {ss : List Store}

theorem Tidy.lastCell_home (tidy : Tidy hash t b xs) {ys zs : List Addr} (split : xs = ys ++ zs) :
    t.cellHome hash (lastCell (.head b) ys) = b := by
  rcases lastCell_mem (.head b : Cell Nat Addr) ys with here | ⟨a, member, later⟩
  · rw [here]
    rfl
  · rw [later]
    exact tidy.home a (by simp [split, member])

/-- All stores of the operation go to cells of the bucket. -/
theorem Pends.home (tidy : Tidy hash t b xs) (pends : Pends hash V t b xs ss) : ∀ s ∈ ss, t.cellHome hash s.cell = b := by
  cases pends with
  | idle => simp
  | remove split =>
    intro s member
    rw [List.mem_singleton.mp member]
    exact tidy.lastCell_home split
  | enter split enters _ =>
    intro s member
    rw [List.mem_singleton.mp member]
    exact tidy.lastCell_home split
  | prepare split enters =>
    intro s member
    rcases List.mem_cons.mp member with rfl | later
    · exact enters.home
    · rw [List.mem_singleton.mp later]
      exact tidy.lastCell_home split

/-- A bucket does not see the stores to other ones. -/
theorem Tidy.frame (tidy : Tidy hash t b xs) (names : t'.name = t.name)
    (links : ∀ c, t.cellHome hash c = b → t'.link c = t.link c) : Tidy hash t' b xs := by
  refine ⟨tidy.path.frame (links _ rfl) fun a member => links _ (tidy.home a member), fun a member => ?_, by rw [names]; exact tidy.names⟩
  rw [Table.home, names]
  exact tidy.home a member

theorem Enters.frame {ys ms zs : List Addr} {a : Addr} (enters : Enters hash V t b ys ms zs a) (names : t'.name = t.name) :
    Enters hash V t' b ys ms zs a := by
  refine ⟨enters.unseen, enters.absent, ?_, ?_, ?_⟩
  · rw [Table.home, names]
    exact enters.home
  · rw [names]
    exact enters.replaces
  · rw [names]
    exact enters.names

theorem Pends.frame (pends : Pends hash V t b xs ss) (names : t'.name = t.name)
    (links : ∀ c, t.cellHome hash c = b → t'.link c = t.link c) : Pends hash V t' b xs ss := by
  cases pends with
  | idle => exact .idle
  | remove split => exact .remove split
  | enter split enters ready => exact .enter split (enters.frame names) ((links (.next _) enters.home).trans ready)
  | prepare split enters => exact .prepare split (enters.frame names)

theorem Table.store_home (t : Table) (s : Store) (a : Addr) : (t.store s).home hash a = t.home hash a := by
  rw [Table.home, t.store_name]
  rfl

/-- The store that takes an item out of its chain. -/
theorem Tidy.remove {ys zs : List Addr} {o : Addr} (tidy : Tidy hash t b (ys ++ o :: zs)) :
    Tidy hash (t.store ⟨lastCell (.head b) ys, zs.head?⟩) b (ys ++ zs) := by
  have fewer : (ys ++ zs).Sublist (ys ++ o :: zs) := (List.sublist_cons_self o zs).append_left ys
  refine ⟨?_, fun a member => ?_, ?_⟩
  · rw [t.store_link]
    exact tidy.path.remove
  · rw [t.store_home]
    exact tidy.home a (fewer.subset member)
  · rw [t.store_name]
    exact tidy.names.sublist (fewer.map t.name)

/-- The store that links an item in. -/
theorem Tidy.enter {ys ms zs : List Addr} {a : Addr} (tidy : Tidy hash t b (ys ++ (ms ++ zs))) (enters : Enters hash V t b ys ms zs a)
    (ready : t.link (.next a) = zs.head?) : Tidy hash (t.store ⟨lastCell (.head b) ys, some a⟩) b (ys ++ a :: zs) := by
  refine ⟨?_, fun x member => ?_, ?_⟩
  · rw [t.store_link]
    exact tidy.path.enter (by simp) enters.absent ready
  · rw [t.store_home]
    rcases List.mem_append.mp member with before | later
    · exact tidy.home x (by simp [before])
    · rcases List.mem_cons.mp later with rfl | behind
      · exact enters.home
      · exact tidy.home x (by simp [behind])
  · rw [t.store_name]
    exact enters.names

/-- The store to the link of an item that is in no chain. -/
theorem Tidy.prepare {a : Addr} (tidy : Tidy hash t b xs) (absent : a ∉ xs) (p : Option Addr) :
    Tidy hash (t.store ⟨.next a, p⟩) b xs := by
  refine ⟨tidy.path.frame ?_ fun x member => ?_, fun x member => ?_, ?_⟩
  · rw [t.store_link]
    exact Function.update_of_ne (by simp) _ _
  · rw [t.store_link]
    refine Function.update_of_ne ?_ _ _
    rintro ⟨⟩
    exact absent member
  · rw [t.store_home]
    exact tidy.home x member
  · rw [t.store_name]
    exact tidy.names

/-- What the next store of an operation does to its bucket. -/
theorem Pends.store {s : Store} (tidy : Tidy hash t b xs) (pends : Pends hash V t b xs (s :: ss)) :
    ∃ xs', Tidy hash (t.store s) b xs' ∧ Pends hash (V ∪ {a | a ∈ xs'}) (t.store s) b xs' ss := by
  cases pends with
  | @remove ys zs o split =>
    subst split
    exact ⟨ys ++ zs, tidy.remove, .idle⟩
  | @enter ys ms zs a split enters ready =>
    subst split
    exact ⟨ys ++ a :: zs, tidy.enter enters ready, .idle⟩
  | @prepare ys ms zs a split enters =>
    -- the item is in no chain yet
    have absent : a ∉ xs := split ▸ enters.absent
    have unseen : a ∉ V ∪ {x | x ∈ xs} := by
      rintro (known | inside)
      · exact enters.unseen known
      · exact absent inside
    have still := enters.frame (t.store_name ⟨.next a, zs.head?⟩)
    refine ⟨xs, tidy.prepare absent _, .enter split { still with unseen := unseen } ?_⟩
    rw [t.store_link]
    exact Function.update_self _ _ _

/-! ## Filling an item -/

@[simp] theorem Table.setItem_name_self (t : Table) (a : Addr) (it : Item) : (t.setItem a it).name a = it.name := by
  simp [Table.name, Table.setItem]

theorem Table.setItem_name_other (t : Table) {a x : Addr} (it : Item) (other : x ≠ a) : (t.setItem a it).name x = t.name x := by
  simp [Table.name, Table.setItem, Function.update_of_ne other]

theorem Table.setItem_link_other (t : Table) {a : Addr} {c : Cell Nat Addr} (it : Item) (other : c ≠ .next a) :
    (t.setItem a it).link c = t.link c := by
  cases c with
  | head b => rfl
  | next x =>
    have differ : x ≠ a := fun same => other (by rw [same])
    simp [Table.link, Table.setItem, Function.update_of_ne differ]

variable {a : Addr} (it : Item)

theorem Tidy.setItem (tidy : Tidy hash t b xs) (absent : a ∉ xs) : Tidy hash (t.setItem a it) b xs := by
  have differ : ∀ x ∈ xs, x ≠ a := by
    rintro x member rfl
    exact absent member
  have names : xs.map (t.setItem a it).name = xs.map t.name :=
    List.map_congr_left fun x member => t.setItem_name_other it (differ x member)
  refine ⟨tidy.path.frame (t.setItem_link_other it (by simp)) fun x member => ?_, fun x member => ?_, by rw [names]; exact tidy.names⟩
  · exact t.setItem_link_other it fun same => differ x member (Cell.next.inj same)
  · rw [Table.home, t.setItem_name_other it (differ x member)]
    exact tidy.home x member

theorem Enters.setItem {ys ms zs : List Addr} {x : Addr} (enters : Enters hash V t b ys ms zs x) (absent : a ∉ ys ++ (ms ++ zs))
    (differ : x ≠ a) : Enters hash V (t.setItem a it) b ys ms zs x := by
  have others : ∀ y ∈ ys ++ (ms ++ zs), y ≠ a := by
    rintro y member rfl
    exact absent member
  refine ⟨enters.unseen, enters.absent, ?_, fun o member => ?_, ?_⟩
  · rw [Table.home, t.setItem_name_other it differ]
    exact enters.home
  · rw [t.setItem_name_other it (others o (by simp [member])), t.setItem_name_other it differ]
    exact enters.replaces o member
  · have names : (ys ++ x :: zs).map (t.setItem a it).name = (ys ++ x :: zs).map t.name := by
      refine List.map_congr_left fun y member => t.setItem_name_other it ?_
      rcases List.mem_append.mp member with before | later
      · exact others y (by simp [before])
      · rcases List.mem_cons.mp later with rfl | behind
        · exact differ
        · exact others y (by simp [behind])
    rw [names]
    exact enters.names

theorem Pends.setItem (pends : Pends hash V t b xs ss) (absent : a ∉ xs)
    (unused : ∀ s ∈ ss, s.cell ≠ .next a ∧ s.value ≠ some a) : Pends hash V (t.setItem a it) b xs ss := by
  cases pends with
  | idle => exact .idle
  | remove split => exact .remove split
  | @enter ys ms zs x split enters ready =>
    have differ : x ≠ a := fun same => (unused _ List.mem_cons_self).2 (by rw [same])
    refine .enter split (enters.setItem it (split ▸ absent) differ) ?_
    rw [t.setItem_link_other it fun same => differ (Cell.next.inj same)]
    exact ready
  | @prepare ys ms zs x split enters =>
    have differ : x ≠ a := fun same => (unused _ List.mem_cons_self).1 (by rw [same])
    exact .prepare split (enters.setItem it (split ▸ absent) differ)

/-! ## Beginning an operation -/

theorem Pends.insert {node : Nat} (tidy : Tidy hash t b xs) (absent : a ∉ xs) (unseen : a ∉ V) (home : bucketOf (hash it.name) = b)
    (other : ∀ x ∈ xs, t.name x ≠ it.name)
    (run : assocInsert numNode (t.setItem a it) node a (hash it.name) = some ss) : Pends hash V (t.setItem a it) b xs ss := by
  have tidy' := tidy.setItem it absent
  have names := tidy'.names
  simp only [assocInsert, Option.bind_eq_bind, Option.bind_eq_some_iff, Option.pure_def, Option.some.injEq, home] at run
  obtain ⟨_, _, rfl⟩ := run
  have head : (t.setItem a it).heads b = xs.head? := tidy'.path.link_eq
  rw [head]
  refine @Pends.prepare _ _ _ _ _ [] [] _ _ rfl ⟨unseen, absent, ?_, by simp, ?_⟩
  · rw [Table.home, t.setItem_name_self]
    exact home
  · rw [List.nil_append, List.map_cons, List.nodup_cons, t.setItem_name_self]
    refine ⟨fun member => ?_, names⟩
    obtain ⟨x, inside, same⟩ := List.mem_map.mp member
    have differ : x ≠ a := by
      rintro rfl
      exact absent inside
    rw [t.setItem_name_other it differ] at same
    exact other x inside same

/-- What `_hashitem_before` finds in a bucket, by the name it looks for. -/
theorem Tidy.before (tidy : Tidy hash t b xs) {key : List UInt8} {nkey hv fuel : Nat} {pos : Cell Nat Addr}
    (home : bucketOf hv = b) (run : hashitemBefore fuel t key nkey hv = some pos) :
    (t.link pos = none ∧ ∀ x ∈ xs, t.name x ≠ (nkey, key.take nkey)) ∨
      ∃ ys o zs, xs = ys ++ o :: zs ∧ pos = lastCell (.head b) ys ∧ t.link pos = some o ∧ t.name o = (nkey, key.take nkey) ∧
        t.link (.next o) = zs.head? := by
  rw [hashitemBefore, home] at run
  obtain ⟨ys, zs, rfl, rfl, others, first⟩ := hashitemBeforeLoop_path tidy.path run
  have behind := tidy.path.drop
  cases zs with
  | nil => exact Or.inl ⟨behind, by simpa using others⟩
  | cons o zs => exact Or.inr ⟨ys, o, zs, rfl, rfl, behind.1, first o (by simp), behind.2.link_eq⟩

theorem Pends.replace {old : Addr} {fuel : Nat} (tidy : Tidy hash t b xs) (absent : a ∉ xs) (unseen : a ∉ V)
    (home : bucketOf (hash it.name) = b) (same : (t.setItem a it).name old = it.name)
    (run : assocReplace fuel (t.setItem a it) old a (hash it.name) = some ss) : Pends hash V (t.setItem a it) b xs ss := by
  have tidy' := tidy.setItem it absent
  simp only [assocReplace, Option.bind_eq_bind, Option.bind_eq_some_iff] at run
  obtain ⟨pos, before, stores⟩ := run
  rcases tidy'.before home before with ⟨none, _⟩ | ⟨ys, o, zs, rfl, rfl, found, named, next⟩
  · rw [none] at stores
    obtain rfl := Option.some.inj stores
    exact .idle
  · rw [found] at stores
    obtain rfl := Option.some.inj stores
    have name : (t.setItem a it).name o = (t.setItem a it).name a := by
      rw [named, t.setItem_name_self, ← same]
      rfl
    rw [show ((t.setItem a it).items o).hNext = zs.head? from next]
    refine @Pends.prepare _ _ _ _ _ ys [o] zs a rfl ⟨unseen, absent, ?_, ?_, ?_⟩
    · rw [Table.home, t.setItem_name_self]
      exact home
    · simpa using name
    · have names := tidy'.names
      rw [List.map_append, List.map_cons] at names ⊢
      rwa [← name]

theorem Pends.delete {key : List UInt8} {nkey node fuel : Nat} (tidy : Tidy hash t b xs)
    (home : bucketOf (hash (nkey, key.take nkey)) = b)
    (run : assocDelete numNode fuel t node key nkey (hash (nkey, key.take nkey)) = some ss) : Pends hash V t b xs ss := by
  simp only [assocDelete, Option.bind_eq_bind, Option.bind_eq_some_iff, Option.pure_def, Option.some.injEq] at run
  obtain ⟨pos, before, _, _, o, found, rfl⟩ := run
  rcases tidy.before home before with ⟨none, _⟩ | ⟨ys, o', zs, rfl, rfl, found', _, next⟩
  · rw [none] at found
    cases found
  · obtain rfl := Option.some.inj (found.symm.trans found')
    rw [show (t.items o).hNext = zs.head? from next]
    exact .remove rfl

/-! ## Every step of the writers -/

theorem Pends.turn_self {pending : Nat → List Store} (pends : Pends hash V t b xs ss) :
    Pends hash V t b xs (Function.update pending b ss b) := by
  rwa [Function.update_self]

theorem Pends.turn_other {pending : Nat → List Store} {b' : Nat} (differ : b ≠ b') (pends : Pends hash V t b xs (pending b)) :
    Pends hash V t b xs (Function.update pending b' ss b) := by
  rwa [Function.update_of_ne differ]

theorem Pends.grow {b' : Nat} {ys : List Addr} (pends : Pends hash V t b xs ss) (tidy : Tidy hash t b' ys)
    (same : b = b' → xs = ys) : Pends hash (V ∪ {a | a ∈ ys}) t b xs ss := by
  have more : ∀ {us ms zs : List Addr} {a : Addr}, xs = us ++ (ms ++ zs) → Enters hash V t b us ms zs a →
      Enters hash (V ∪ {a | a ∈ ys}) t b us ms zs a := by
    intro us ms zs a split enters
    refine ⟨?_, enters.absent, enters.home, enters.replaces, enters.names⟩
    rintro (known | inside)
    · exact enters.unseen known
    · have here : b = b' := enters.home.symm.trans (tidy.home a inside)
      rw [← same here, split] at inside
      exact enters.absent inside
  cases pends with
  | idle => exact .idle
  | remove split => exact .remove split
  | enter split enters ready => exact .enter split (more split enters) ready
  | prepare split enters => exact .prepare split (more split enters)

theorem Pends.mono {V' : Set Addr} (pends : Pends hash V t b xs ss) (fewer : V' ⊆ V) : Pends hash V' t b xs ss := by
  have less : ∀ {us ms zs : List Addr} {a : Addr}, Enters hash V t b us ms zs a → Enters hash V' t b us ms zs a :=
    fun enters => { enters with unseen := fun known => enters.unseen (fewer known) }
  cases pends with
  | idle => exact .idle
  | remove split => exact .remove split
  | enter split enters ready => exact .enter split (less enters) ready
  | prepare split enters => exact .prepare split (less enters)

/-- What a step of a writer does to the bucket `B` with the chain `xs`: nothing that a reader of the items
`V` sees, or one store that takes an item out or links one in. -/
inductive Change (V : Set Addr) (B : Nat) (t t' : Table) (xs : List Addr) : List Addr → Prop where
  | quiet (same : ∀ a ∈ V, t'.name a = t.name a ∧ t'.link (.next a) = t.link (.next a)) : Change V B t t' xs xs
  | remove {ys zs : List Addr} {o : Addr} (split : xs = ys ++ o :: zs)
      (after : t' = t.store ⟨lastCell (.head B) ys, zs.head?⟩) : Change V B t t' xs (ys ++ zs)
  | enter {ys ms zs : List Addr} {a : Addr} (split : xs = ys ++ (ms ++ zs)) (replaces : ∀ o ∈ ms, t.name o = t.name a)
      (after : t' = t.store ⟨lastCell (.head B) ys, some a⟩) : Change V B t t' xs (ys ++ a :: zs)

variable {σ σ' : Sys} {B : Nat}

/-- The invariant of all buckets. -/
def AllWorking (hash : Key → Nat) (V : Set Addr) (σ : Sys) : Prop := ∀ b, ∃ xs, Working hash V σ b xs

theorem Tidy.inBucket (tidy : Tidy hash t b xs) : t.InBucket b a ↔ a ∈ xs := by
  constructor
  · rintro ⟨ys, path, member⟩
    rwa [tidy.path.unique path]
  · exact fun member => ⟨xs, tidy.path, member⟩

/-- A writer begins an operation on the bucket `b`. -/
theorem AllWorking.begin (all : AllWorking hash V σ) (fresh : σ.Fresh V a) (idle : σ.pending b = [])
    (begins : ∀ xs, Tidy hash σ.table b xs → a ∉ xs → Pends hash V (σ.table.setItem a it) b xs ss)
    (tidy : Tidy hash σ.table B xs) :
    AllWorking hash (V ∪ {x | x ∈ xs}) ⟨σ.table.setItem a it, Function.update σ.pending b ss⟩ ∧
      Tidy hash (σ.table.setItem a it) B xs ∧ Change V B σ.table (σ.table.setItem a it) xs xs := by
  have absent : ∀ {b' : Nat} {ys : List Addr}, Tidy hash σ.table b' ys → a ∉ ys :=
    fun tidy member => fresh.unlinked _ (tidy.inBucket.mpr member)
  have tidy' := tidy.setItem it (absent tidy)
  refine ⟨fun b' => ?_, tidy', .quiet fun x known => ?_⟩
  · obtain ⟨ys, here, pends⟩ := all b'
    have here' := here.setItem it (absent here)
    have same : b' = B → ys = xs := by
      rintro rfl
      exact here.path.unique tidy.path
    refine ⟨ys, here', Pends.grow ?_ tidy' same⟩
    by_cases this : b' = b
    · subst this
      refine Pends.turn_self ?_
      exact begins ys here (absent here)
    · refine Pends.turn_other this ?_
      exact pends.setItem it (absent here) (fresh.unused b')
  · have differ : x ≠ a := by
      rintro rfl
      exact fresh.unseen known
    exact ⟨σ.table.setItem_name_other it differ, σ.table.setItem_link_other it fun same => differ (Cell.next.inj same)⟩

/-- **Each step of a writer** keeps all buckets working. -/
theorem AllWorking.step (all : AllWorking hash V σ) (homes : ∀ a ∈ V, σ.table.home hash a = B)
    (tidy : Tidy hash σ.table B xs) (next : WStep numNode hash V σ σ') :
    ∃ xs', AllWorking hash (V ∪ {a | a ∈ xs'}) σ' ∧ Tidy hash σ'.table B xs' ∧ Change V B σ.table σ'.table xs xs' := by
  cases next with
  | @insert a it node ss idle fresh absent run =>
    refine ⟨xs, all.begin it fresh idle (fun ys here missing => ?_) tidy⟩
    exact Pends.insert it here missing fresh.unseen rfl (fun x inside => absent x (here.inBucket.mpr inside)) run
  | @replace old a it fuel ss idle fresh same run =>
    refine ⟨xs, all.begin it fresh idle (fun ys here missing => ?_) tidy⟩
    exact Pends.replace it here missing fresh.unseen rfl same run
  | @delete key nkey node fuel ss idle run =>
    refine ⟨xs, fun b' => ?_, tidy, .quiet fun _ _ => ⟨rfl, rfl⟩⟩
    obtain ⟨ys, here, pends⟩ := all b'
    have same : b' = B → ys = xs := by
      rintro rfl
      exact here.path.unique tidy.path
    refine ⟨ys, here, Pends.grow ?_ tidy same⟩
    by_cases this : b' = bucketOf (hash (nkey, key.take nkey))
    · subst this
      refine Pends.turn_self ?_
      exact Pends.delete here rfl run
    · refine Pends.turn_other this ?_
      exact pends
  | @store b s ss next =>
    obtain ⟨ys, here, pends⟩ := all b
    rw [next] at pends
    have cell := pends.home here s List.mem_cons_self
    -- the other buckets see nothing
    have others : ∀ {c : Cell Nat Addr}, σ.table.cellHome hash c ≠ b → (σ.table.store s).link c = σ.table.link c := by
      intro c differ
      rw [σ.table.store_link]
      exact Function.update_of_ne (fun same => differ (by rw [same]; exact cell)) _ _
    have frame : ∀ b', b' ≠ b → ∀ c, σ.table.cellHome hash c = b' → (σ.table.store s).link c = σ.table.link c := by
      rintro b' differ c rfl
      exact others differ
    obtain ⟨ys', here', pends'⟩ := pends.store here
    by_cases mine : b = B
    · subst mine
      obtain rfl := here.path.unique tidy.path
      refine ⟨ys', fun b' => ?_, here', ?_⟩
      · by_cases this : b' = b
        · subst this
          refine ⟨ys', here', ?_⟩
          refine Pends.turn_self ?_
          exact pends'
        · obtain ⟨zs, there, pending⟩ := all b'
          have still := there.frame (σ.table.store_name s) (frame b' this)
          refine ⟨zs, still, ?_⟩
          refine Pends.turn_other this ?_
          exact (pending.frame (σ.table.store_name s) (frame b' this)).grow here' fun same => absurd same this
      · cases pends with
        | @remove us zs o split =>
          have after : us ++ zs = ys' := by
            refine Path.unique ?_ here'.path
            rw [σ.table.store_link]
            exact (split ▸ here.path).remove
          rw [← after]
          exact .remove split rfl
        | @enter us ms zs a split enters ready =>
          have after : us ++ a :: zs = ys' := by
            refine Path.unique ?_ here'.path
            rw [σ.table.store_link]
            exact (split ▸ here.path).enter (by simp) enters.absent ready
          rw [← after]
          exact .enter split enters.replaces rfl
        | @prepare us ms zs a split enters =>
          have same : ∀ x, x ≠ a → (σ.table.store ⟨.next a, zs.head?⟩).link (.next x) = σ.table.link (.next x) := by
            intro x differ
            rw [σ.table.store_link]
            exact Function.update_of_ne (fun same => differ (Cell.next.inj same)) _ _
          have after : ys = ys' := by
            refine (here.path.frame ?_ fun x member => same x ?_).unique here'.path
            · rw [σ.table.store_link]
              exact Function.update_of_ne (by simp) _ _
            · rintro rfl
              exact enters.absent (split ▸ member)
          rw [← after]
          refine .quiet fun x known => ⟨congrFun (σ.table.store_name ⟨.next a, zs.head?⟩) x, same x ?_⟩
          rintro rfl
          exact enters.unseen known
    · have tidy' := tidy.frame (σ.table.store_name s) (frame B (Ne.symm mine))
      refine ⟨xs, fun b' => ?_, tidy', .quiet fun x known => ⟨congrFun (σ.table.store_name s) x, ?_⟩⟩
      · by_cases this : b' = b
        · subst this
          refine ⟨ys', here', ?_⟩
          refine Pends.turn_self ?_
          refine (pends'.mono Set.subset_union_left).grow tidy' fun same => absurd same mine
        · obtain ⟨zs, there, pending⟩ := all b'
          have still := there.frame (σ.table.store_name s) (frame b' this)
          have same : b' = B → zs = xs := by
            rintro rfl
            exact there.path.unique tidy.path
          refine ⟨zs, still, ?_⟩
          refine Pends.turn_other this ?_
          exact (pending.frame (σ.table.store_name s) (frame b' this)).grow tidy' same
      · exact others (by rw [show σ.table.cellHome hash (.next x) = B from homes x known]; exact Ne.symm mine)

theorem Written.working (written : Written numNode hash σ) : AllWorking hash ∅ σ := by
  induction written with
  | init items => exact fun b => ⟨[], ⟨rfl, by simp, List.nodup_nil⟩, .idle⟩
  | step _ next ih =>
    obtain ⟨xs, tidy, _⟩ := ih 0
    obtain ⟨xs', all, _⟩ := ih.step (B := 0) (fun a member => absurd member (Set.notMem_empty a)) tidy next
    intro b
    obtain ⟨ys, here, pends⟩ := all b
    exact ⟨ys, here, pends.mono (Set.empty_subset _)⟩

end

end BiProject.BiMc
