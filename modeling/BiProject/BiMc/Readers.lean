import BiProject.BiMc.Writers
import Mathlib.Logic.Relation

/-!
# Readers without a lock

A reader runs `assoc_find` one pointer load at a time, in any interleaving with the writers. An item that
was in the reader's bucket at some moment of its search is not used again while the search runs.

A reader may stand on an item that is no longer in its chain. The link of such an item is never stored to
again, and leads to an item that was the next one in the chain at the time. The invariant is about the
walk a search would take from where it stands: it ends, it finds the key if the key has been in the table
ever since the search began, and it misses it if the key has not.
-/

namespace BiProject.BiMc
set_option autoImplicit false
open BiProject.Lib.Chains

/-! ## What a step does to a walk -/

section
variable {numNode : Nat} {hash : Key → Nat} {V : Set Addr} {t t' : Table} {xs : List Addr} {σ σ' : Sys} {B : Nat}

/-- The item `a` is the table's item for the key `k`. -/
def Table.Binds (hash : Key → Nat) (t : Table) (k : Key) (a : Addr) : Prop := t.InBucket (bucketOf (hash k)) a ∧ t.name a = k

def Table.Has (hash : Key → Nat) (t : Table) (k : Key) : Prop := ∃ a, t.Binds hash k a

variable {k : Key}

theorem Tidy.has_iff (tidy : Tidy hash t (bucketOf (hash k)) xs) : t.Has hash k ↔ ∃ a ∈ xs, t.name a = k := by
  constructor
  · rintro ⟨a, inside, same⟩
    exact ⟨a, tidy.inBucket.mp inside, same⟩
  · rintro ⟨a, member, same⟩
    exact ⟨a, tidy.inBucket.mpr member, same⟩

/-- A walk that passes the cell that is stored to goes on along the new chain. -/
theorem walk_relink {ys us ws : List Addr} {v p r : Option Addr} (old : Path t.link (.head B) (ys ++ us))
    (new : Path (t.store ⟨lastCell (.head B) ys, v⟩).link (.head B) (ys ++ ws)) (walk : Walk t.link (t.name · = k) p r) :
    ∃ r', Walk (t.store ⟨lastCell (.head B) ys, v⟩).link (t.name · = k) p r' ∧
      (r' = r ∨ (r = us.find? (t.name · = k) ∧ r' = ws.find? (t.name · = k))) := by
  have after : Walk _ (t.name · = k) _ _ := new.drop.walk
  have before : Walk _ (t.name · = k) _ _ := old.drop.walk
  rw [t.store_link] at after ⊢
  rcases List.eq_nil_or_concat ys with rfl | ⟨front, x, rfl⟩
  · -- the head of the bucket is no link of an item
    refine ⟨r, walk.frame Set.univ (fun _ _ => trivial) (fun _ _ _ _ => trivial) (fun _ _ => Iff.rfl) fun a _ => ?_, Or.inl rfl⟩
    exact Function.update_of_ne (by simp [lastCell]) _ _
  · rw [List.concat_eq_append, lastCell_append] at before after ⊢
    rcases walk.store (v := v) (x := x) with same | ⟨_, behind, follow⟩
    · exact ⟨r, same, Or.inl rfl⟩
    · simp only [Function.update_self] at after
      exact ⟨_, follow _ after, Or.inr ⟨behind.det before, rfl⟩⟩

/-- The walk of a search after a step of a writer. -/
theorem Change.walk {xs' : List Addr} {p r : Option Addr} (change : Change V (bucketOf (hash k)) t t' xs xs')
    (tidy : Tidy hash t (bucketOf (hash k)) xs) (tidy' : Tidy hash t' (bucketOf (hash k)) xs')
    (closed : ∀ a ∈ V, ∀ b, t.link (.next a) = some b → b ∈ V) (start : ∀ a, p = some a → a ∈ V)
    (walk : Walk t.link (t.name · = k) p r) :
    ∃ r', Walk t'.link (t'.name · = k) p r' ∧
      (r' = r ∨ (t.Has hash k ∧ ¬ t'.Has hash k) ∨ (t'.Has hash k ∧ r' ≠ none)) := by
  cases change with
  | quiet same => exact ⟨r, walk.frame V start closed (fun a known => by rw [(same a known).1]) fun a known => (same a known).2, Or.inl rfl⟩
  | @remove ys zs o split after =>
    subst split after
    obtain ⟨r', walk', kept⟩ := walk_relink tidy.path tidy'.path walk
    rw [t.store_name]
    refine ⟨r', walk', ?_⟩
    rcases kept with same | ⟨before, behind⟩
    · exact Or.inl same
    by_cases removed : t.name o = k
    · refine Or.inr (Or.inl ⟨tidy.has_iff.mpr ⟨o, by simp, removed⟩, fun has => ?_⟩)
      obtain ⟨a, member, same⟩ := tidy'.has_iff.mp has
      rw [t.store_name] at same
      have names := tidy.names
      rw [List.map_append, List.map_cons] at names
      refine (List.nodup_cons.mp (List.perm_middle.nodup_iff.mp names)).1 ?_
      rw [removed, ← same, ← List.map_append]
      exact List.mem_map_of_mem member
    · rw [List.find?_cons_of_neg (by simpa using removed)] at before
      exact Or.inl (behind.trans before.symm)
  | @enter ys ms zs a split replaces after =>
    subst split after
    obtain ⟨r', walk', kept⟩ := walk_relink tidy.path tidy'.path walk
    rw [t.store_name]
    refine ⟨r', walk', ?_⟩
    rcases kept with same | ⟨before, behind⟩
    · exact Or.inl same
    by_cases entered : t.name a = k
    · refine Or.inr (Or.inr ⟨tidy'.has_iff.mpr ⟨a, by simp, by rw [t.store_name]; exact entered⟩, ?_⟩)
      rw [behind, List.find?_cons_of_pos (by simpa using entered)]
      simp
    · have none : ms.find? (t.name · = k) = none := by
        refine List.find?_eq_none.mpr fun o member => ?_
        rw [replaces o member]
        simpa using entered
      rw [List.find?_append, none, Option.none_or] at before
      rw [List.find?_cons_of_neg (by simpa using entered)] at behind
      exact Or.inl (behind.trans before.symm)

end

/-! ## The reader -/

/-- The states of `assoc_find`: called, holding a pointer, returned. -/
inductive Find where
  | called
  | at (p : Option Addr)
  | done (r : Option Addr)

/-- One pointer load of the search. -/
inductive RStep (hash : Key → Nat) (key : List UInt8) (nkey : Nat) (t : Table) : Find → Find → Prop where
  | head : RStep hash key nkey t .called (.at (t.heads (bucketOf (hash (nkey, key.take nkey)))))
  | found {a : Addr} (same : (t.items a).matches key nkey = true) : RStep hash key nkey t (.at (some a)) (.done (some a))
  | next {a : Addr} (other : (t.items a).matches key nkey = false) :
      RStep hash key nkey t (.at (some a)) (.at (t.items a).hNext)
  | missing : RStep hash key nkey t (.at none) (.done none)

/-- The items that were in the bucket at one of these moments. -/
def Seen (B : Nat) (ts : List Table) : Set Addr := {a | ∃ t ∈ ts, t.InBucket B a}

/-- A search called in state `σ₀` and interleaved with the writers: the tables since then, the latest first,
the state of the writers and that of the search. -/
inductive SearchRun (numNode : Nat) (hash : Key → Nat) (key : List UInt8) (nkey : Nat) (σ₀ : Sys) :
    List Table → Sys → Find → Prop where
  | call : SearchRun numNode hash key nkey σ₀ [σ₀.table] σ₀ .called
  | read {ts : List Table} {σ : Sys} {f f' : Find} (run : SearchRun numNode hash key nkey σ₀ ts σ f)
      (next : RStep hash key nkey σ.table f f') : SearchRun numNode hash key nkey σ₀ ts σ f'
  | write {ts : List Table} {σ σ' : Sys} {f : Find} (run : SearchRun numNode hash key nkey σ₀ ts σ f)
      (next : WStep numNode hash (Seen (bucketOf (hash (nkey, key.take nkey))) ts) σ σ') :
      SearchRun numNode hash key nkey σ₀ (σ'.table :: ts) σ' f

/-- What is true of a search: where its walk leads. -/
def FindInv (hash : Key → Nat) (k : Key) (ts : List Table) (t : Table) : Find → Prop
  | .called => True
  | .at p => (∀ a, p = some a → a ∈ Seen (bucketOf (hash k)) ts) ∧
      ∃ r, Walk t.link (t.name · = k) p r ∧ ((∀ t ∈ ts, t.Has hash k) → r ≠ none) ∧ ((∀ t ∈ ts, ¬ t.Has hash k) → r = none)
  | .done r => (∀ a, r = some a → a ∈ Seen (bucketOf (hash k)) ts ∧ t.name a = k) ∧
      ((∀ t ∈ ts, t.Has hash k) → r ≠ none) ∧ ((∀ t ∈ ts, ¬ t.Has hash k) → r = none)

/-- The invariant of an interleaved search. An item that was in the bucket belongs there, and had its key then. -/
structure SearchInv (hash : Key → Nat) (k : Key) (ts : List Table) (σ : Sys) (f : Find) : Prop where
  latest : σ.table ∈ ts
  working : AllWorking hash (Seen (bucketOf (hash k)) ts) σ
  homes : ∀ a ∈ Seen (bucketOf (hash k)) ts, σ.table.home hash a = bucketOf (hash k)
  closed : ∀ a ∈ Seen (bucketOf (hash k)) ts, ∀ b, σ.table.link (.next a) = some b → b ∈ Seen (bucketOf (hash k)) ts
  bound : ∀ a ∈ Seen (bucketOf (hash k)) ts, ∃ t ∈ ts, t.InBucket (bucketOf (hash k)) a ∧ t.name a = σ.table.name a
  find : FindInv hash k ts σ.table f

section
variable {numNode : Nat} {hash : Key → Nat} {key : List UInt8} {nkey : Nat} {ts : List Table} {σ σ₀ σ' : Sys} {f f' : Find}
  {k : Key} {xs : List Addr}

theorem seen_cons {B : Nat} {t : Table} (tidy : Tidy hash t B xs) : Seen B (t :: ts) = Seen B ts ∪ {a | a ∈ xs} := by
  ext a
  constructor
  · rintro ⟨t', member, inside⟩
    rcases List.mem_cons.mp member with rfl | earlier
    · exact Or.inr (tidy.inBucket.mp inside)
    · exact Or.inl ⟨t', earlier, inside⟩
  · rintro (⟨t', member, inside⟩ | inside)
    · exact ⟨t', List.mem_cons_of_mem t member, inside⟩
    · exact ⟨t, List.mem_cons_self, tidy.inBucket.mpr inside⟩

theorem Tidy.next_mem {t : Table} {B : Nat} (tidy : Tidy hash t B xs) {a b : Addr} (member : a ∈ xs)
    (next : t.link (.next a) = some b) : b ∈ xs := by
  obtain ⟨ys, zs, rfl⟩ := List.append_of_mem member
  have path : Path t.link (.head B) (ys ++ a :: zs) := tidy.path
  have behind := path.drop.2.link_eq
  rw [next] at behind
  cases zs with
  | nil => cases behind
  | cons z rest =>
    obtain rfl := Option.some.inj behind
    simp

/-- The search begins. -/
theorem SearchInv.start (written : Written numNode hash σ₀) : SearchInv hash k [σ₀.table] σ₀ .called := by
  have all := written.working
  obtain ⟨xs, tidy, _⟩ := all (bucketOf (hash k))
  have seen : Seen (bucketOf (hash k)) [σ₀.table] = ∅ ∪ {a | a ∈ xs} := by
    rw [seen_cons tidy]
    congr 1
    ext a
    simp [Seen]
  refine ⟨List.mem_cons_self, fun b => ?_, fun a known => ?_, fun a known b next => ?_, fun a known => ?_, trivial⟩
  · obtain ⟨ys, here, pends⟩ := all b
    rw [seen]
    refine ⟨ys, here, pends.grow tidy ?_⟩
    rintro rfl
    exact here.path.unique tidy.path
  · obtain ⟨t, member, inside⟩ := known
    rw [List.mem_singleton.mp member] at inside
    exact tidy.home a (tidy.inBucket.mp inside)
  · obtain ⟨t, member, inside⟩ := known
    rw [List.mem_singleton.mp member] at inside
    exact ⟨_, List.mem_cons_self, tidy.inBucket.mpr (tidy.next_mem (tidy.inBucket.mp inside) next)⟩
  · obtain ⟨t, member, inside⟩ := known
    rw [List.mem_singleton.mp member] at inside
    exact ⟨_, List.mem_cons_self, inside, rfl⟩

/-- A load of the reader. -/
theorem SearchInv.read (inv : SearchInv hash (nkey, key.take nkey) ts σ f) (next : RStep hash key nkey σ.table f f') :
    SearchInv hash (nkey, key.take nkey) ts σ f' := by
  refine { inv with find := ?_ }
  have find := inv.find
  cases next with
  | head =>
    obtain ⟨xs, tidy, _⟩ := inv.working (bucketOf (hash (nkey, key.take nkey)))
    have start : σ.table.heads (bucketOf (hash (nkey, key.take nkey))) = xs.head? := tidy.path.link_eq
    have walk : Walk _ (σ.table.name · = (nkey, key.take nkey)) _ _ := tidy.path.walk
    refine ⟨fun a first => ⟨_, inv.latest, tidy.inBucket.mpr (List.mem_of_mem_head? (start ▸ first))⟩, _, walk, fun all => ?_, fun none => ?_⟩
    · obtain ⟨a, member, same⟩ := tidy.has_iff.mp (all _ inv.latest)
      intro missed
      exact List.find?_eq_none.mp missed a member (by simpa using same)
    · refine List.find?_eq_none.mpr fun a member => ?_
      simpa using fun same => none _ inv.latest (tidy.has_iff.mpr ⟨a, member, same⟩)
  | @found a same =>
    obtain ⟨inside, r, walk, has, hasNot⟩ := find
    have isKey := (σ.table.matches_iff a key nkey).mp same
    obtain rfl : r = some a := walk.det (.found isKey)
    refine ⟨fun b result => ?_, has, hasNot⟩
    obtain rfl := Option.some.inj result
    exact ⟨inside a rfl, isKey⟩
  | @next a other =>
    obtain ⟨inside, r, walk, has, hasNot⟩ := find
    refine ⟨inv.closed a (inside a rfl), r, ?_, has, hasNot⟩
    cases walk with
    | found here =>
      rw [(σ.table.matches_iff a key nkey).mpr here] at other
      cases other
    | next _ rest => exact rest
  | missing =>
    obtain ⟨_, r, walk, has, hasNot⟩ := find
    obtain rfl : r = none := walk.det .missing
    exact ⟨fun a result => (by cases result), has, hasNot⟩

/-- The names of items that readers know do not change, and their links lead to such items. -/
theorem Change.seen {V : Set Addr} {B : Nat} {t t' : Table} {xs' : List Addr} (change : Change V B t t' xs xs')
    (tidy' : Tidy hash t' B xs') (closed : ∀ a ∈ V, ∀ b, t.link (.next a) = some b → b ∈ V) :
    (∀ a ∈ V, t'.name a = t.name a) ∧
      ∀ a ∈ V ∪ {a | a ∈ xs'}, ∀ b, t'.link (.next a) = some b → b ∈ V ∪ {a | a ∈ xs'} := by
  have inside : ∀ a ∈ xs', ∀ b, t'.link (.next a) = some b → b ∈ V ∪ {a | a ∈ xs'} :=
    fun a member b next => Or.inr (tidy'.next_mem member next)
  -- a node whose link was not stored to, or which is in the chain
  have relink : ∀ s : Store, t' = t.store s → (∀ a, s.cell = .next a → a ∈ xs') →
      ∀ a ∈ V ∪ {a | a ∈ xs'}, ∀ b, t'.link (.next a) = some b → b ∈ V ∪ {a | a ∈ xs'} := by
    rintro s rfl stored a (old | new) b next
    · by_cases here : s.cell = .next a
      · exact inside a (stored a here) b next
      · rw [t.store_link, Function.update_of_ne (Ne.symm here)] at next
        exact Or.inl (closed a old b next)
    · exact inside a new b next
  have stored : ∀ ys rest, xs' = ys ++ rest → ∀ a, lastCell (.head B) ys = .next a → a ∈ xs' := by
    intro ys rest split a cell
    rcases lastCell_mem (.head B : Cell Nat Addr) ys with here | ⟨x, member, later⟩
    · rw [here] at cell
      cases cell
    · obtain rfl := Cell.next.inj (later.symm.trans cell)
      simp [split, member]
  cases change with
  | quiet same =>
    refine ⟨fun a member => (same a member).1, fun a member b next => ?_⟩
    rcases member with old | new
    · rw [(same a old).2] at next
      exact Or.inl (closed a old b next)
    · exact inside a new b next
  | @remove ys zs o split after =>
    exact ⟨fun a _ => by rw [after, t.store_name], relink _ after (stored ys zs rfl)⟩
  | @enter ys ms zs a split _ after =>
    exact ⟨fun a _ => by rw [after, t.store_name], relink _ after (stored ys (a :: zs) rfl)⟩

/-- A step of a writer. -/
theorem SearchInv.write (inv : SearchInv hash k ts σ f) (next : WStep numNode hash (Seen (bucketOf (hash k)) ts) σ σ') :
    SearchInv hash k (σ'.table :: ts) σ' f := by
  obtain ⟨xs, tidy, _⟩ := inv.working (bucketOf (hash k))
  obtain ⟨xs', working, tidy', change⟩ := inv.working.step inv.homes tidy next
  obtain ⟨names, closed⟩ := change.seen tidy' inv.closed
  have grows : ∀ {a}, a ∈ Seen (bucketOf (hash k)) ts → a ∈ Seen (bucketOf (hash k)) (σ'.table :: ts) := by
    rintro a ⟨t, member, inside⟩
    exact ⟨t, List.mem_cons_of_mem _ member, inside⟩
  have has : (∀ t ∈ σ'.table :: ts, t.Has hash k) → ∀ t ∈ ts, t.Has hash k := fun all t member => all t (by simp [member])
  have hasNot : (∀ t ∈ σ'.table :: ts, ¬ t.Has hash k) → ∀ t ∈ ts, ¬ t.Has hash k := fun all t member => all t (by simp [member])
  rw [← seen_cons tidy'] at working closed
  refine ⟨List.mem_cons_self, working, fun a member => ?_, closed, fun a member => ?_, ?_⟩
  · rw [seen_cons tidy'] at member
    rcases member with old | new
    · rw [Table.home, names a old]
      exact inv.homes a old
    · exact tidy'.home a new
  · rw [seen_cons tidy'] at member
    rcases member with old | new
    · obtain ⟨t, moment, inside, name⟩ := inv.bound a old
      exact ⟨t, List.mem_cons_of_mem _ moment, inside, name.trans (names a old).symm⟩
    · exact ⟨_, List.mem_cons_self, tidy'.inBucket.mpr new, rfl⟩
  · have find := inv.find
    cases f with
    | called => trivial
    | «at» p =>
      obtain ⟨inside, r, walk, found, missed⟩ := find
      obtain ⟨r', walk', kept⟩ := change.walk tidy tidy' inv.closed inside walk
      refine ⟨fun a first => grows (inside a first), r', walk', fun all => ?_, fun none => ?_⟩
      · rcases kept with rfl | ⟨_, gone⟩ | ⟨_, some⟩
        · exact found (has all)
        · exact absurd (all _ List.mem_cons_self) gone
        · exact some
      · rcases kept with rfl | ⟨there, _⟩ | ⟨there, _⟩
        · exact missed (hasNot none)
        · exact absurd there (none _ (List.mem_cons_of_mem _ inv.latest))
        · exact absurd there (none _ List.mem_cons_self)
    | done r =>
      obtain ⟨inside, found, missed⟩ := find
      refine ⟨fun a result => ?_, fun all => found (has all), fun none => missed (hasNot none)⟩
      obtain ⟨member, name⟩ := inside a result
      exact ⟨grows member, (names a member).trans name⟩

theorem SearchRun.inv (written : Written numNode hash σ₀) (run : SearchRun numNode hash key nkey σ₀ ts σ f) :
    SearchInv hash (nkey, key.take nkey) ts σ f := by
  induction run with
  | call => exact .start written
  | read _ next ih => exact ih.read next
  | write _ next ih => exact ih.write next

/-- A search that runs on alone returns. -/
theorem walk_returns {t : Table} {p r : Option Addr} (walk : Walk t.link (t.name · = (nkey, key.take nkey)) p r) :
    Relation.ReflTransGen (RStep hash key nkey t) (.at p) (.done r) := by
  induction walk with
  | missing => exact .single .missing
  | @found a here => exact .single (.found ((t.matches_iff a key nkey).mpr here))
  | @next a r other _ ih =>
    refine .head (.next ?_) ih
    rw [← Bool.not_eq_true, t.matches_iff a key nkey]
    exact other

/-- **Readers need no lock.** In every interleaving of a search for a key with the writers of all buckets: the
search returns once it runs on; if the key was in the table at every moment since the call it returns an
item with this key; if it was absent at every moment it returns NULL; and an item it returns was the
table's item for the key at some moment since the call. -/
theorem assocFind_concurrent (written : Written numNode hash σ₀) (run : SearchRun numNode hash key nkey σ₀ ts σ f) :
    (∃ r, Relation.ReflTransGen (RStep hash key nkey σ.table) f (.done r)) ∧
    ∀ r, f = .done r →
      ((∀ t ∈ ts, t.Has hash (nkey, key.take nkey)) → ∃ a, r = some a ∧ σ.table.name a = (nkey, key.take nkey)) ∧
      ((∀ t ∈ ts, ¬ t.Has hash (nkey, key.take nkey)) → r = none) ∧
      ∀ a, r = some a → σ.table.name a = (nkey, key.take nkey) ∧ ∃ t ∈ ts, t.Binds hash (nkey, key.take nkey) a := by
  have inv := run.inv written
  constructor
  · cases f with
    | called =>
      obtain ⟨_, r, walk, _⟩ := (inv.read .head).find
      exact ⟨r, .head .head (walk_returns walk)⟩
    | «at» p =>
      obtain ⟨_, r, walk, _⟩ := inv.find
      exact ⟨r, walk_returns walk⟩
    | done r => exact ⟨r, .refl⟩
  · rintro r rfl
    obtain ⟨inside, found, missed⟩ := inv.find
    refine ⟨fun all => ?_, missed, fun a result => ?_⟩
    · obtain ⟨a, result⟩ := Option.ne_none_iff_exists'.mp (found all)
      exact ⟨a, result, (inside a result).2⟩
    · obtain ⟨known, name⟩ := inside a result
      obtain ⟨t, moment, there, same⟩ := inv.bound a known
      exact ⟨name, t, moment, there, same.trans name⟩

end

/-! ## A reader on an item that is deleted -/

def smallItem : Item where
  hNext := none
  hv := 0
  nbytes := 3
  nsuffix := 0
  linked := true
  slabbed := false
  slabsClsid := 0
  nkey := 1
  key := [1]
  suffix := []
  data := [9]

/-- A search has loaded the bucket's head when the item is deleted: it still returns the item, which was the
table's item for the key when the search was called. -/
theorem assocFind_concurrent_delete :
    ∃ σ₀ σ ts, SearchRun 4 (fun _ => 0) [1] 1 σ₀ ts σ (.done (some 7)) ∧ σ.table.heads (bucketOf 0) = none ∧
      ∃ t ∈ ts, t.Binds (fun _ => 0) (1, [1]) 7 := by
  have empty : ∀ b a, ¬ Table.InBucket ⟨fun _ => none, fun _ => smallItem⟩ b a := by
    rintro b a ⟨xs, path, member⟩
    cases xs with
    | nil => cases member
    | cons x rest => cases path.1
  obtain ⟨σ₀, written, head, item, idle⟩ : ∃ σ₀, Written 4 (fun _ => 0) σ₀ ∧ σ₀.table.heads (bucketOf 0) = some 7 ∧
      σ₀.table.items 7 = smallItem ∧ σ₀.pending (bucketOf 0) = [] := by
    have began : Written 4 (fun _ => 0) _ := .init fun _ => smallItem
    have insert := began.step (@WStep.insert 4 (fun _ => 0) ∅ _ 7 smallItem 0 _ rfl
      ⟨Set.notMem_empty 7, fun b => empty b 7, by simp⟩ (fun x inside => absurd inside (empty _ x)) rfl)
    exact ⟨_, (insert.step (.store (b := 0) rfl)).step (.store (b := 0) rfl), rfl, rfl, rfl⟩
  have loaded : SearchRun 4 (fun _ => 0) [1] 1 σ₀ [σ₀.table] σ₀ (.at (some 7)) := by
    rw [← head]
    exact .read .call .head
  have delete : assocDelete 4 1 σ₀.table 0 [1] 1 0 = some [⟨.head (bucketOf 0), none⟩] := by
    have isKey : smallItem.matches [1] 1 = true := by decide
    have node : mcHv2node 4 0 = 0 := by decide
    have last : smallItem.hNext = none := rfl
    simp [assocDelete, hashitemBefore, hashitemBeforeLoop, Table.link, head, item, isKey, node, last]
  have began := loaded.write (@WStep.delete 4 (fun _ => 0) _ _ [1] 1 0 1 _ idle delete)
  have deleted := began.write (@WStep.store _ _ _ _ (bucketOf 0) ⟨.head (bucketOf 0), none⟩ [] (by simp))
  have search := deleted.read (.found (a := 7) (by rw [Table.store, item]; decide))
  obtain ⟨_, result⟩ := assocFind_concurrent written search
  exact ⟨_, _, _, search, by simp [Table.store], ((result _ rfl).2.2 7 rfl).2⟩

end BiProject.BiMc
