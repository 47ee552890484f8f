import BiProject.McServer.Values
import Mathlib.Data.Finset.Card

/-!
# The table of a `2pc_mc` server

The hash table of a server that has room for every item, for keys of `KEY_LENGTH` bytes without a NUL and values of
`V_LENGTH` bytes. It carries the proof that it is well formed, so that `mc_set_key_ext` and `mc_get_key_ext` always
return, and what is seen of it is a map.
-/

namespace BiProject.TwoPc
set_option autoImplicit false
open BiProject.McServer

/-- A key of a request: `KEY_LENGTH` bytes, none of them NUL. -/
abbrev Key := { k : List UInt8 // k.length = keyLength ∧ 0 ∉ k }

/-- A value of a request. -/
abbrev Value := { v : List UInt8 // v.length = vLength }

/-- What a server holds when the objects from `bound` on have not been handed out. -/
structure Filled (hash : List UInt8 → Nat) (σ : Server) (bound : Nat) (chain : Nat → List Addr) (book : Book) : Prop where
  holds : Holds hash σ chain book
  handed : ∀ b, ∀ a ∈ chain b, a < bound
  ready : ∀ a, (σ.items a).slabsClsid = 0
  whole : ∀ k first last, book k = some (first, last) → first.length = vLength ∧ last.length = vLength

/-- The next object, when there is always one. -/
def handOut (a : Addr) (σ : Server) : Option (Option Addr × Server) := some (some a, σ)

section
variable {hash : List UInt8 → Nat} {σ : Server} {bound : Nat} {chain : Nat → List Addr} {book : Book}

theorem Filled.short (filled : Filled hash σ bound chain book) (b : Nat) : (chain b).length < bound + 1 := by
  have fits : chain b ⊆ List.range bound := fun a member => List.mem_range.mpr (filled.handed b a member)
  have count := ((filled.holds.table.nodup b).subperm fits).length_le
  rw [List.length_range] at count
  omega

/-- **A get** reads what the book has. -/
theorem Filled.get (filled : Filled hash σ bound chain book) (key : Key) :
    ∃ r, McServer.mcGetKeyExt (bound + 1) σ key keyLength (hash key) = some r ∧
      (r.map fun a => (σ.items a).load (σ.items a).dataOff ((σ.items a).nbytes - 2)) = (book key).map Prod.snd := by
  have short := filled.short (bucketOf (hash key))
  cases known : book key with
  | none => exact ⟨none, filled.holds.find_none key.2.1 short known, rfl⟩
  | some values =>
    obtain ⟨first, last⟩ := values
    obtain ⟨a, _, found, _, stores⟩ := filled.holds.find key.2.1 short known
    obtain ⟨firstLength, lastLength⟩ := filled.whole _ first last known
    refine ⟨some a, found, ?_⟩
    have length : (σ.items a).nbytes - 2 = last.length := by
      rw [stores.nbytes, firstLength, lastLength]
      rfl
    rw [Option.map_some, length, stores.data]
    rfl

theorem whole_update {key first data : List UInt8}
    (whole : ∀ k first last, book k = some (first, last) → first.length = vLength ∧ last.length = vLength)
    (firstLength : first.length = vLength) (dataLength : data.length = vLength) :
    ∀ k first' last', Function.update book key (some (first, data)) k = some (first', last') →
      first'.length = vLength ∧ last'.length = vLength := by
  intro k first' last' present
  by_cases same : k = key
  · subst same
    rw [Function.update_self, Option.some.injEq, Prod.mk.injEq] at present
    obtain ⟨rfl, rfl⟩ := present
    exact ⟨firstLength, dataLength⟩
  · rw [Function.update_of_ne same] at present
    exact whole k first' last' present

theorem map_snd_update (book : Book) (key : Key) (first data : List UInt8) (k : Key) :
    (Function.update book key.1 (some (first, data)) k).map Prod.snd = if k = key then some data else (book k).map Prod.snd := by
  by_cases same : k = key
  · subst same
    simp
  · have differ : k.1 ≠ key.1 := fun equal => same (Subtype.ext equal)
    simp [same, differ]

/-- **A set** writes the book. -/
theorem Filled.set (filled : Filled hash σ bound chain book) (key : Key) (data : Value) :
    ∃ σ' chain' book', mcSetKeyExt2pc (handOut bound) (bound + 1) σ key keyLength data data.1.length (hash key) = some (true, σ') ∧
      Filled hash σ' (bound + 1) chain' book' ∧
      ∀ k : Key, (book' k).map Prod.snd = if k = key then some data.1 else (book k).map Prod.snd := by
  have short := filled.short (bucketOf (hash key))
  cases known : book key with
  | some values =>
    obtain ⟨first, last⟩ := values
    obtain ⟨a, member, call, holds⟩ := filled.holds.setKey_known (handOut bound) (fun _ => none) key.2.1 short known data.1
    refine ⟨_, chain, _, call, ⟨holds, ?_, ?_, ?_⟩, ?_⟩
    · exact fun b x inside => Nat.lt_succ_of_lt (filled.handed b x inside)
    · intro x
      by_cases same : x = a
      · subst same
        rw [setInPlace, σ.modify_self]
        exact filled.ready x
      · rw [setInPlace, σ.modify_other _ same]
        exact filled.ready x
    · exact whole_update filled.whole (filled.whole _ first last known).1 data.2
    · exact map_snd_update book key first data.1
  | none =>
    have absent : ∀ b, bound ∉ chain b := fun b inside => Nat.lt_irrefl _ (filled.handed b bound inside)
    obtain ⟨σ', call, holds, _, _, _, _, ready⟩ := filled.holds.setKey_new (fun _ => none) key.2.1
      (Nat.le_of_eq data.2) short known (rfl : handOut bound σ = some (some bound, σ)) filled.holds known absent (filled.ready bound)
    refine ⟨σ', _, _, call, ⟨holds, ?_, fun x => ready x (filled.ready x), ?_⟩, ?_⟩
    · intro b x inside
      by_cases home : b = bucketOf (hash key)
      · subst home
        rw [Function.update_self, List.mem_cons] at inside
        rcases inside with rfl | old
        · exact Nat.lt_succ_self _
        · exact Nat.lt_succ_of_lt (filled.handed _ x old)
      · rw [Function.update_of_ne home] at inside
        exact Nat.lt_succ_of_lt (filled.handed b x inside)
    · exact whole_update filled.whole data.2 data.2
    · exact map_snd_update book key data.1 data.1

end

/-! ## The table -/

/-- A hash table that is well formed. -/
structure Table (hash : List UInt8 → Nat) where
  server : Server
  bound : Nat
  filled : ∃ chain book, Filled hash server bound chain book

section
variable {hash : List UInt8 → Nat}

/-- The table that `assoc_init` leaves. -/
def Table.empty : Table hash where
  server := Server.start []
  bound := 0
  filled := ⟨fun _ => [], fun _ => none, ⟨⟨⟨fun b => rfl, by simp, by simp⟩, by simp, by simp, by simp⟩, by simp, fun _ => rfl, by simp⟩⟩

theorem Table.get_isSome (t : Table hash) (key : Key) :
    (McServer.mcGetKeyExt (t.bound + 1) t.server key keyLength (hash key)).isSome := by
  obtain ⟨chain, book, filled⟩ := t.filled
  obtain ⟨r, call, _⟩ := filled.get key
  simp [call]

/-- `mc_get_key_ext`, and the `it->nbytes-2` bytes of the item that go into the answer. -/
def Table.mcGetKeyExt (t : Table hash) (key : Key) : Option (List UInt8) :=
  let r := (McServer.mcGetKeyExt (t.bound + 1) t.server key keyLength (hash key)).get (t.get_isSome key)
  r.map fun a => (t.server.items a).load (t.server.items a).dataOff ((t.server.items a).nbytes - 2)

theorem Table.set_isSome (t : Table hash) (key : Key) (data : Value) :
    (mcSetKeyExt2pc (handOut t.bound) (t.bound + 1) t.server key keyLength data data.1.length (hash key)).isSome := by
  obtain ⟨chain, book, filled⟩ := t.filled
  obtain ⟨σ', _, _, call, _⟩ := filled.set key data
  simp [call]

theorem Table.set_filled (t : Table hash) (key : Key) (data : Value) :
    ∃ chain book, Filled hash
      ((mcSetKeyExt2pc (handOut t.bound) (t.bound + 1) t.server key keyLength data data.1.length (hash key)).get
        (t.set_isSome key data)).2 (t.bound + 1) chain book := by
  obtain ⟨chain, book, filled⟩ := t.filled
  obtain ⟨σ', chain', book', call, after, _⟩ := filled.set key data
  refine ⟨chain', book', ?_⟩
  simpa [call] using after

/-- `mc_set_key_ext`. -/
def Table.mcSetKeyExt (t : Table hash) (key : Key) (data : Value) : Table hash where
  server := ((mcSetKeyExt2pc (handOut t.bound) (t.bound + 1) t.server key keyLength data data.1.length (hash key)).get
    (t.set_isSome key data)).2
  bound := t.bound + 1
  filled := t.set_filled key data

theorem Filled.mcGetKeyExt {t : Table hash} {chain : Nat → List Addr} {book : Book} (filled : Filled hash t.server t.bound chain book)
    (key : Key) : t.mcGetKeyExt key = (book key).map Prod.snd := by
  obtain ⟨r, call, value⟩ := filled.get key
  simpa [Table.mcGetKeyExt, call] using value

@[simp] theorem Table.empty_get (key : Key) : (Table.empty : Table hash).mcGetKeyExt key = none := by
  have filled : Filled hash (Table.empty : Table hash).server (Table.empty : Table hash).bound (fun _ => []) (fun _ => none) :=
    ⟨⟨⟨fun b => rfl, by simp, by simp⟩, by simp, by simp, by simp⟩, by simp, fun _ => rfl, by simp⟩
  rw [filled.mcGetKeyExt]
  rfl

/-- **A get after a set**. -/
@[simp] theorem Table.set_get (t : Table hash) (key : Key) (data : Value) (k : Key) :
    (t.mcSetKeyExt key data).mcGetKeyExt k = if k = key then some data.1 else t.mcGetKeyExt k := by
  obtain ⟨chain, book, filled⟩ := t.filled
  obtain ⟨σ', chain', book', call, after, values⟩ := filled.set key data
  have now : Filled hash (t.mcSetKeyExt key data).server (t.mcSetKeyExt key data).bound chain' book' := by
    simpa [Table.mcSetKeyExt, call] using after
  rw [now.mcGetKeyExt, values, filled.mcGetKeyExt]

end

end BiProject.TwoPc
